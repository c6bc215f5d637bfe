import Mathlib.Data.List.Infix
import VelocityMcp.Lib.Text

/-!
# Registry.ShellGuard — which commands `shell_exec` accepts (`registry.rs`)

`refused_disguise_iff`: which disguises are refused.
-/

namespace VelocityMcp.Registry.ShellGuard

open Lib

/-! ## The texts that are searched -/

def isAsciiWhitespace (c : Char) : Bool := c = ' ' || c = '\t' || c = '\n' || c = '\x0c' || c = '\r'

/-- The loop of `collapse_whitespace`. -/
def collapseFrom (prevWs : Bool) : List Char → List Char
  | [] => []
  | c :: s =>
    if isAsciiWhitespace c then if prevWs then collapseFrom true s else ' ' :: collapseFrom true s
    else c :: collapseFrom false s

def collapseWhitespace (s : List Char) : List Char := collapseFrom false s

/-- The Unicode tables behind `to_lowercase`: the lower case of the characters that are not ASCII, and where a capital
sigma ends a word. -/
structure UnicodeTables where
  lower : Char → List Char
  finalSigma : List Char → List Char → Bool

def capitalSigma : Char := 'Σ'

def sigma : Char := 'σ'

def sigmaFinal : Char := 'ς'

variable (tables : UnicodeTables)

def lowerChar (before after : List Char) (c : Char) : List Char :=
  if c.toNat < 128 then [c.toLower]
  else if c = capitalSigma then [if tables.finalSigma before after then sigmaFinal else sigma]
  else tables.lower c

def toLowercaseFrom (before : List Char) : List Char → List Char
  | [] => []
  | c :: s => lowerChar tables before s c ++ toLowercaseFrom (before ++ [c]) s

def toLowercase (s : List Char) : List Char := toLowercaseFrom tables [] s

/-- A text without its backslashes. -/
def bare (s : List Char) : List Char := s.filter (· ≠ '\\')

/-- The command in lower case, runs of white space made one blank. -/
def cmdNormalized (command : String) : List Char := collapseWhitespace (toLowercase tables command.toList)

/-- The same without backslashes. -/
def cmdStripped (command : String) : List Char := collapseWhitespace (bare (cmdNormalized tables command))

/-! ## The patterns -/

/-- `dangerous_unix`. -/
def dangerousUnix : List String :=
  ["rm -rf /", "rm -rf /*", "rm -rf ~", "rm -rf ~/*", "rm -rf .", "rm -rf ..", "rm -fr /", "rm -rf --no-preserve-root",
    "mkfs.", "mkfs ", "dd if=", "dd of=/dev/", ":(){ :|:& };:", "> /dev/sda", "> /dev/nvme", "> /dev/sd", "> /dev/hd",
    "chmod -r 777 /", "chmod -r 777 ~", "chmod -r 777 .", "chown -r", "chgrp -r", "wget | sh", "curl | sh", "wget|sh",
    "curl|sh", "wget | bash", "curl | bash", "wget|bash", "curl|bash", "wget | python", "curl | python", "wget | perl",
    "curl | perl", "unset path", "export path=", "crontab -r", "crontab -e", "find / -exec", "find / -delete",
    "find ~ -delete", "ln -sf /", "ln -sf ~", "tar czf - / |", "tar czf - ~ |", "nc -e", "ncat -e", "nc -c", "ncat -c",
    "eval $(curl", "eval $(wget", "eval `curl", "eval `wget", "curl http://", "wget http://", "> ~/.bashrc",
    "> ~/.bash_profile", "> ~/.profile", "> /etc/passwd", "> /etc/shadow", "echo * > /", "echo * > ~"]

/-- `dangerous_windows`. -/
def dangerousWindows : List String :=
  ["del /f /s /q", "del /s /q c:\\", "del /s /q %systemdrive%", "format ", "format c:", "format d:", "format e:",
    "rd /s /q", "rmdir /s /q", "diskpart", "bootrec", "bcdedit", "reg delete", "net user", "net localgroup",
    "powershell -enc", "powershell -encodedcommand", "wmic process", "wmic os", "schtasks /delete", "schtasks /change",
    "sc delete", "sc stop", "sc config", "taskkill /f /im svchost", "taskkill /f /im lsass", "taskkill /f /im csrss",
    "taskkill /f /im wininit", "cipher /w", "takeown /f", "icacls /grant", "icacls /remove", "reg add hklm",
    "reg add hkcu\\software\\microsoft\\windows\\currentversion\\run", "net stop", "net start", "shutdown", "restart",
    "bitsadmin /transfer", "certutil -urlcache", "certutil -encode", "certutil -decode", "powershell iex",
    "powershell invoke-expression", "powershell downloadstring", "powershell downloadfile", "powershell -nop -sta",
    "rundll32", "regsvr32", "mshta", "msiexec"]

def bypassPatterns : List String :=
  ["$\x7bifs\x7d", "$ifs", "$\x7bpath\x7d", "$\x7bhome\x7d", "$(curl", "$(wget", "$(eval", "`curl", "`wget", "`eval",
    "base64 -d |", "base64 --decode |", "python -c \"import base64", "python3 -c \"import base64"]

/-- The patterns that can only be found in the text with its backslashes. -/
def rawPatterns : List String :=
  bypassPatterns ++ (dangerousUnix ++ dangerousWindows).filter fun p => '\\' ∈ p.toList

/-! ## The guard -/

inductive Refusal where
  | bypass (pattern : String)
  | tooLong (len : ℕ)
  | unix (pattern : String)
  | windows (pattern : String)
deriving DecidableEq, Repr

def Refusal.text : Refusal → String
  | bypass p => s!"Security error: Command contains a bypass pattern: '{p}'\n" ++
      "Variable expansion and encoding tricks are not permitted.\n" ++ "Suggestions:\n" ++
      "- Use literal values instead of variable expansion\n" ++
      "- Write the command directly without encoding tricks\n" ++
      "- If you need dynamic values, use a script file instead"
  | tooLong len => s!"Security error: Command exceeds maximum length ({len} > 10000)\n" ++
      "Extremely long commands are blocked to prevent obfuscation.\n" ++ "Suggestions:\n" ++
      "- Write the logic to a script file and execute it\n" ++
      "- Break the command into smaller, focused steps"
  | unix p => s!"Security error: Command contains dangerous pattern: '{p}'\n" ++
      "This pattern could cause irreversible system damage.\n" ++ "Suggestions:\n" ++
      "- Use more specific file paths instead of broad patterns\n" ++
      "- Break the operation into safer, targeted commands\n" ++
      "- Use the file_remove tool for specific file deletion"
  | windows p => s!"Security error: Command contains dangerous pattern: '{p}'\n" ++
      "This pattern could cause irreversible system damage.\n" ++ "Suggestions:\n" ++
      "- Use more specific file paths instead of broad patterns\n" ++
      "- Use the file_remove tool for specific file deletion\n" ++
      "- Avoid system-level commands that affect the entire system"

def firstIn (patterns : List String) (text : List Char) : Option String :=
  patterns.find? fun p => p.toList <:+: text

def firstInEither (patterns : List String) (text text' : List Char) : Option String :=
  patterns.find? fun p => p.toList <:+: text ∨ p.toList <:+: text'

/-- The validation of `shell_exec`. -/
def checkCommand (command : String) : Except Refusal Unit :=
  let normalized := cmdNormalized tables command
  let stripped := cmdStripped tables command
  match firstIn bypassPatterns normalized with
  | some p => .error (.bypass p)
  | none =>
    if 10000 < (utf8 command).length then .error (.tooLong (utf8 command).length)
    else
      match firstInEither dangerousUnix normalized stripped with
      | some p => .error (.unix p)
      | none =>
        match firstInEither dangerousWindows normalized stripped with
        | some p => .error (.windows p)
        | none => .ok ()

/-- The guard does not let the command through. -/
def Refused (command : String) : Prop := checkCommand tables command ≠ .ok ()

/-- One of the patterns occurs in the text. -/
def HasOne (patterns : List String) (text : List Char) : Prop := ∃ p ∈ patterns, p.toList <:+: text

variable {tables}

theorem firstIn_eq_none_iff {patterns : List String} {text : List Char} :
    firstIn patterns text = none ↔ ¬ HasOne patterns text := by
  rw [firstIn, List.find?_eq_none]
  simp [HasOne]

theorem firstInEither_eq_none_iff {patterns : List String} {text text' : List Char} :
    firstInEither patterns text text' = none ↔ ¬ HasOne patterns text ∧ ¬ HasOne patterns text' := by
  rw [firstInEither, List.find?_eq_none]
  simp only [decide_eq_true_eq, not_or, HasOne, not_exists, not_and]
  exact ⟨fun h => ⟨fun p hp => (h p hp).1, fun p hp => (h p hp).2⟩, fun h p hp => ⟨h.1 p hp, h.2 p hp⟩⟩

theorem refused_iff {command : String} : Refused tables command ↔
    HasOne bypassPatterns (cmdNormalized tables command) ∨ 10000 < (utf8 command).length ∨
      HasOne (dangerousUnix ++ dangerousWindows) (cmdNormalized tables command) ∨
      HasOne (dangerousUnix ++ dangerousWindows) (cmdStripped tables command) := by
  have hboth : ∀ text, HasOne (dangerousUnix ++ dangerousWindows) text ↔
      HasOne dangerousUnix text ∨ HasOne dangerousWindows text := fun text => by
    simp only [HasOne, List.mem_append, or_and_right, exists_or]
  rw [Refused, checkCommand, hboth, hboth]
  cases hbypass : firstIn bypassPatterns (cmdNormalized tables command) with
  | some p =>
    have hone := mt firstIn_eq_none_iff.mpr (by rw [hbypass]; exact Option.some_ne_none p)
    simp [not_not.mp hone]
  | none =>
    have hno := firstIn_eq_none_iff.mp hbypass
    by_cases hlen : 10000 < (utf8 command).length
    · simp [hlen]
    cases hunix : firstInEither dangerousUnix (cmdNormalized tables command) (cmdStripped tables command) with
    | some p =>
      have hone := mt firstInEither_eq_none_iff.mpr (by rw [hunix]; exact Option.some_ne_none p)
      simp only [hlen, if_false, hno, false_or]
      simp
      tauto
    | none =>
      have hno' := firstInEither_eq_none_iff.mp hunix
      cases hwindows : firstInEither dangerousWindows (cmdNormalized tables command) (cmdStripped tables command) with
      | some p =>
        have hone := mt firstInEither_eq_none_iff.mpr (by rw [hwindows]; exact Option.some_ne_none p)
        simp only [hlen, if_false, hno, false_or]
        simp
        tauto
      | none =>
        have hno'' := firstInEither_eq_none_iff.mp hwindows
        simp [hno, hno', hno'', hlen]

/-! ## Disguises -/

/-- The characters that mean something to a shell. -/
def specials : List Char :=
  ['|', '&', ';', '<', '>', '(', ')', '$', '`', '\\', '"', '\'', '*', '?', '[', ']', '#', '~', '=', '%', '!', '\x7b',
    '\x7d', '^']

/-- A character that a shell reads alike with and without a backslash before it. -/
def Ordinary (c : Char) : Prop := isAsciiWhitespace c = false ∧ c ∉ specials

/-- `t` is `s` with backslashes before ordinary characters, and with more blanks where there are blanks. -/
inductive Disguise : List Char → List Char → Prop
  | nil : Disguise [] []
  | keep (c : Char) {s t : List Char} : Disguise s t → Disguise (c :: s) (c :: t)
  | escape {c : Char} {s t : List Char} : Ordinary c → Disguise s t → Disguise (c :: s) ('\\' :: c :: t)
  | widen {c : Char} {ws ws' s t : List Char} : isAsciiWhitespace c = true → (∀ w ∈ ws, isAsciiWhitespace w = true) →
    (∀ w ∈ ws', isAsciiWhitespace w = true) → Disguise s t → Disguise (c :: s) (ws ++ c :: ws' ++ t)

theorem Disguise.refl (s : List Char) : Disguise s s := by
  induction s with
  | nil => exact .nil
  | cons c s ih => exact .keep c ih

theorem Disguise.append_left (l : List Char) {s t : List Char} (h : Disguise s t) : Disguise (l ++ s) (l ++ t) := by
  induction l with
  | nil => exact h
  | cons c l ih => exact .keep c ih

/-! ## Collapsed blanks -/

theorem collapseFrom_white {c : Char} (hc : isAsciiWhitespace c = true) (b : Bool) (s : List Char) :
    collapseFrom b (c :: s) = (if b then [] else [' ']) ++ collapseFrom true s := by
  rw [collapseFrom, if_pos hc]
  cases b <;> rfl

theorem collapseFrom_other {c : Char} (hc : isAsciiWhitespace c = false) (b : Bool) (s : List Char) :
    collapseFrom b (c :: s) = c :: collapseFrom false s := by
  rw [collapseFrom, if_neg (by rw [hc]; exact Bool.false_ne_true)]

theorem collapseFrom_true_whites {ws : List Char} (hws : ∀ w ∈ ws, isAsciiWhitespace w = true) (s : List Char) :
    collapseFrom true (ws ++ s) = collapseFrom true s := by
  induction ws with
  | nil => rfl
  | cons w ws ih =>
    rw [List.cons_append, collapseFrom_white (hws w List.mem_cons_self)]
    exact ih fun w hw => hws w (List.mem_cons_of_mem _ hw)

theorem collapseFrom_whites_cons {ws : List Char} (hws : ∀ w ∈ ws, isAsciiWhitespace w = true) {c : Char}
    (hc : isAsciiWhitespace c = true) (b : Bool) (s : List Char) :
    collapseFrom b (ws ++ c :: s) = collapseFrom b (c :: s) := by
  cases ws with
  | nil => rfl
  | cons w ws =>
    rw [List.cons_append, collapseFrom_white (hws w List.mem_cons_self), collapseFrom_white hc,
      collapseFrom_true_whites fun w hw => hws w (List.mem_cons_of_mem _ hw), collapseFrom_white hc]
    rfl

def endsBlank (b : Bool) (s : List Char) : Bool := s.foldl (fun _ c => isAsciiWhitespace c) b

theorem endsBlank_cons (b : Bool) (c : Char) (s : List Char) :
    endsBlank b (c :: s) = endsBlank (isAsciiWhitespace c) s := rfl

theorem collapseFrom_append (b : Bool) (s t : List Char) :
    collapseFrom b (s ++ t) = collapseFrom b s ++ collapseFrom (endsBlank b s) t := by
  induction s generalizing b with
  | nil => rfl
  | cons c s ih =>
    cases hc : isAsciiWhitespace c with
    | true =>
      rw [List.cons_append, collapseFrom_white hc, collapseFrom_white hc, ih, List.append_assoc, endsBlank_cons, hc]
    | false =>
      rw [List.cons_append, collapseFrom_other hc, collapseFrom_other hc, ih, List.cons_append, endsBlank_cons, hc]

theorem length_collapseFrom_le (b : Bool) (s : List Char) : (collapseFrom b s).length ≤ s.length := by
  induction s generalizing b with
  | nil => exact le_rfl
  | cons c s ih =>
    cases hc : isAsciiWhitespace c with
    | true =>
      rw [collapseFrom_white hc, List.length_append, List.length_cons]
      have := ih true
      have : (if b then [] else [' ']).length ≤ 1 := by cases b <;> decide
      omega
    | false =>
      rw [collapseFrom_other hc, List.length_cons, List.length_cons]
      exact Nat.succ_le_succ (ih false)

theorem collapseFrom_tidy {p : List Char} (hp : collapseFrom true p = p) (b : Bool) (t : List Char) :
    p <:+: collapseFrom b (p ++ t) := by
  have hstart : collapseFrom b p = p := by
    cases p with
    | nil => rfl
    | cons c p =>
      cases hc : isAsciiWhitespace c with
      | true =>
        rw [collapseFrom_white hc] at hp
        have hle := length_collapseFrom_le true p
        have hlen := congrArg List.length hp
        simp only [if_true, List.nil_append, List.length_cons] at hlen
        omega
      | false => rw [collapseFrom_other hc, ← collapseFrom_other hc true, hp]
  rw [collapseFrom_append, hstart]
  exact (List.prefix_append _ _).isInfix

theorem infix_collapse_of_tidy {p s : List Char} (hp : collapseFrom true p = p) (h : p <:+: s) (b : Bool) :
    p <:+: collapseFrom b s := by
  obtain ⟨before, after, rfl⟩ := h
  rw [List.append_assoc, collapseFrom_append]
  exact (collapseFrom_tidy hp _ after).trans (List.suffix_append _ _).isInfix

/-- Without its backslashes, a text is the same whether its blanks were collapsed before or not. -/
theorem collapse_bare_collapse (b b' : Bool) (hb : b = true → b' = true) (s : List Char) :
    collapseFrom b' (bare (collapseFrom b s)) = collapseFrom b' (bare s) := by
  induction s generalizing b b' with
  | nil => rfl
  | cons c s ih =>
    cases hc : isAsciiWhitespace c with
    | true =>
      have hne : c ≠ '\\' := by
        rintro rfl
        cases hc
      have hbare : bare (c :: s) = c :: bare s := List.filter_cons_of_pos (by simpa using hne)
      rw [collapseFrom_white hc, hbare, collapseFrom_white hc]
      cases b with
      | true =>
        rw [hb rfl]
        exact ih true true fun _ => rfl
      | false =>
        have hspace : bare ([' '] ++ collapseFrom true s) = ' ' :: bare (collapseFrom true s) :=
          List.filter_cons_of_pos (by decide)
        rw [if_neg Bool.false_ne_true, hspace, collapseFrom_white rfl, ih true true fun _ => rfl]
    | false =>
      rw [collapseFrom_other hc]
      by_cases heq : c = '\\'
      · have hbare : ∀ t, bare (c :: t) = bare t := fun t => List.filter_cons_of_neg (by simpa using heq)
        rw [hbare, hbare]
        exact ih false b' fun h => absurd h Bool.false_ne_true
      · have hbare : ∀ t, bare (c :: t) = c :: bare t := fun t => List.filter_cons_of_pos (by simpa using heq)
        rw [hbare, hbare, collapseFrom_other hc, collapseFrom_other hc, ih false false id]

/-! ## Lower case -/

def oneSigma (c : Char) : Char := if c = sigmaFinal then sigma else c

/-- The lower case of a character wherever it stands, up to the form of a sigma. -/
def lowerForm (tables : UnicodeTables) (c : Char) : List Char := (lowerChar tables [] [] c).map oneSigma

theorem map_lowerChar (before after : List Char) (c : Char) :
    (lowerChar tables before after c).map oneSigma = lowerForm tables c := by
  rw [lowerForm, lowerChar, lowerChar]
  split_ifs <;> rfl

theorem map_toLowercaseFrom (before s : List Char) :
    (toLowercaseFrom tables before s).map oneSigma = s.flatMap (lowerForm tables) := by
  induction s generalizing before with
  | nil => rfl
  | cons c s ih => rw [toLowercaseFrom, List.map_append, map_lowerChar, ih, List.flatMap_cons]

theorem oneSigma_white (c : Char) : isAsciiWhitespace (oneSigma c) = isAsciiWhitespace c := by
  rw [oneSigma]
  split_ifs with hc
  · rw [hc]
    decide
  · rfl

theorem oneSigma_eq_backslash_iff (c : Char) : oneSigma c = '\\' ↔ c = '\\' := by
  rw [oneSigma]
  split_ifs with hc
  · rw [hc]
    decide
  · rfl

theorem map_bare (s : List Char) : (bare s).map oneSigma = bare (s.map oneSigma) := by
  rw [bare, bare, List.filter_map]
  congr 2
  funext c
  simp [oneSigma_eq_backslash_iff]

theorem map_collapseFrom (b : Bool) (s : List Char) :
    (collapseFrom b s).map oneSigma = collapseFrom b (s.map oneSigma) := by
  induction s generalizing b with
  | nil => rfl
  | cons c s ih =>
    cases hc : isAsciiWhitespace c with
    | true =>
      rw [List.map_cons, collapseFrom_white hc, collapseFrom_white ((oneSigma_white c).trans hc), List.map_append, ih]
      cases b <;> rfl
    | false =>
      rw [List.map_cons, collapseFrom_other hc, collapseFrom_other ((oneSigma_white c).trans hc), List.map_cons, ih]

def SigmaFree (p : List Char) : Prop := ∀ c ∈ p, c ≠ sigma ∧ c ≠ sigmaFinal

theorem map_eq_of_sigmaFree {p m : List Char} (hp : SigmaFree p) : m.map oneSigma = p ↔ m = p := by
  constructor
  · rintro rfl
    refine (List.map_id _).symm.trans (List.map_congr_left fun c hc => ?_)
    have hfree := hp (oneSigma c) (List.mem_map_of_mem hc)
    rw [oneSigma] at hfree ⊢
    split_ifs at hfree ⊢ with heq
    · exact absurd rfl hfree.1
    · rfl
  · rintro rfl
    exact (List.map_congr_left fun c hc => if_neg (hp c hc).2).trans (List.map_id _)

theorem infix_map_oneSigma_iff {p s : List Char} (hp : SigmaFree p) : p <:+: s.map oneSigma ↔ p <:+: s := by
  constructor
  · rintro ⟨before, after, h⟩
    obtain ⟨rest, last, rfl, hrest, -⟩ := List.map_eq_append_iff.mp h.symm
    obtain ⟨first, mid, rfl, -, hmid⟩ := List.map_eq_append_iff.mp hrest
    exact ⟨first, last, by rw [(map_eq_of_sigmaFree hp).mp hmid]⟩
  · rintro ⟨before, after, rfl⟩
    rw [List.map_append, List.map_append, (map_eq_of_sigmaFree hp).mpr rfl]
    exact ⟨_, _, rfl⟩

/-! ## The text of a disguise -/

theorem lowerForm_white {c : Char} (hc : isAsciiWhitespace c = true) : lowerForm tables c = [c] := by
  have hcases : c = ' ' ∨ c = '\t' ∨ c = '\n' ∨ c = '\x0c' ∨ c = '\r' := by
    simpa [isAsciiWhitespace, or_assoc] using hc
  rcases hcases with rfl | rfl | rfl | rfl | rfl <;> rfl

theorem flatMap_lowerForm_whites {ws : List Char} (hws : ∀ w ∈ ws, isAsciiWhitespace w = true) :
    ws.flatMap (lowerForm tables) = ws := by
  induction ws with
  | nil => rfl
  | cons w ws ih =>
    rw [List.flatMap_cons, lowerForm_white (hws w List.mem_cons_self),
      ih fun w hw => hws w (List.mem_cons_of_mem _ hw)]
    rfl

theorem bare_whites {ws : List Char} (hws : ∀ w ∈ ws, isAsciiWhitespace w = true) : bare ws = ws := by
  refine List.filter_eq_self.mpr fun w hw => ?_
  have hwhite := hws w hw
  rw [decide_eq_true_iff]
  rintro rfl
  cases hwhite

theorem collapse_bare_disguise {s t : List Char} (h : Disguise s t) (b : Bool) :
    collapseFrom b (bare (t.flatMap (lowerForm tables))) = collapseFrom b (bare (s.flatMap (lowerForm tables))) := by
  have happend : ∀ u v : List Char, bare (u ++ v) = bare u ++ bare v := fun u v => List.filter_append u v
  induction h generalizing b with
  | nil => rfl
  | keep c _ ih =>
    rw [List.flatMap_cons, List.flatMap_cons, happend, happend, collapseFrom_append, collapseFrom_append, ih]
  | escape _ _ ih =>
    rw [List.flatMap_cons, List.flatMap_cons, List.flatMap_cons, happend, happend, happend,
      show bare (lowerForm tables '\\') = [] from rfl, List.nil_append, collapseFrom_append, collapseFrom_append, ih]
  | @widen c ws ws' s t hc hws hws' _ ih =>
    have hc' : ∀ w ∈ [c], isAsciiWhitespace w = true := by simpa using hc
    rw [List.flatMap_append, List.flatMap_append, List.flatMap_cons, List.flatMap_cons, lowerForm_white hc,
      flatMap_lowerForm_whites hws, flatMap_lowerForm_whites hws', happend, happend, happend, happend, bare_whites hws,
      bare_whites hws', bare_whites hc', List.append_assoc, List.append_assoc]
    show collapseFrom b (ws ++ c :: (ws' ++ _)) = collapseFrom b (c :: bare (s.flatMap (lowerForm tables)))
    rw [collapseFrom_whites_cons hws hc, collapseFrom_white hc, collapseFrom_white hc,
      collapseFrom_true_whites hws', ih]

/-- **What is searched without backslashes is the same for a disguise**, up to the form of a sigma. -/
theorem stripped_disguise {c d : String} (h : Disguise c.toList d.toList) :
    (cmdStripped tables d).map oneSigma = (cmdStripped tables c).map oneSigma := by
  have hform : ∀ s : String, (cmdStripped tables s).map oneSigma =
      collapseFrom false (bare (s.toList.flatMap (lowerForm tables))) := fun s => by
    rw [cmdStripped, cmdNormalized, collapseWhitespace, collapseWhitespace, toLowercase, map_collapseFrom, map_bare,
      map_collapseFrom, map_toLowercaseFrom, collapse_bare_collapse false false id]
  rw [hform, hform, collapse_bare_disguise h]

theorem hasOne_map_oneSigma {patterns : List String} (hfree : ∀ p ∈ patterns, SigmaFree p.toList) (text : List Char) :
    HasOne patterns (text.map oneSigma) ↔ HasOne patterns text :=
  exists_congr fun p => and_congr_right fun hp => infix_map_oneSigma_iff (hfree p hp)

/-! ## The patterns -/

/-- It has no sigma, and its blanks are as the guard leaves them. -/
def Fit (s : List Char) : Prop := s.all (fun c => c ≠ sigma ∧ c ≠ sigmaFinal) = true ∧ collapseFrom true s = s

instance (s : List Char) : Decidable (Fit s) := inferInstanceAs (Decidable (_ ∧ _))

theorem fit_ofList {s : List Char} (h : Fit s) : Fit (String.ofList s).toList := by
  rwa [String.toList_ofList]

theorem fit_dangerous : ∀ p ∈ dangerousUnix ++ dangerousWindows, Fit p.toList := by
  simp only [dangerousUnix, dangerousWindows, List.cons_append, List.nil_append, List.forall_mem_cons]
  repeat refine And.intro (fit_ofList (by decide +kernel)) ?_
  exact fun p hp => absurd hp List.not_mem_nil

theorem sigmaFree_dangerous : ∀ p ∈ dangerousUnix ++ dangerousWindows, SigmaFree p.toList :=
  fun p hp c hc => of_decide_eq_true (List.all_eq_true.mp (fit_dangerous p hp).1 c hc)

theorem tidy_dangerous : ∀ p ∈ dangerousUnix ++ dangerousWindows, collapseFrom true p.toList = p.toList :=
  fun p hp => (fit_dangerous p hp).2

theorem stripped_of_normalized {p command : String} (hp : collapseFrom true p.toList = p.toList)
    (hbare : '\\' ∉ p.toList) (h : p.toList <:+: cmdNormalized tables command) :
    p.toList <:+: cmdStripped tables command := by
  have hself : bare p.toList = p.toList := List.filter_eq_self.mpr fun c hc => by
    rw [decide_eq_true_iff]
    rintro rfl
    exact hbare hc
  have hfilter : bare p.toList <:+: bare (cmdNormalized tables command) := h.filter _
  rw [hself] at hfilter
  exact infix_collapse_of_tidy hp hfilter false

/-! ## Which disguises are refused -/

/-- **A disguise is refused** if it is too long, if the command has a dangerous pattern once its backslashes are gone,
or if the disguise spares a pattern that is sought with its backslashes; and in no other case. -/
theorem refused_disguise_iff {c d : String} (h : Disguise c.toList d.toList) :
    Refused tables d ↔ 10000 < (utf8 d).length ∨
      HasOne (dangerousUnix ++ dangerousWindows) (cmdStripped tables c) ∨
      HasOne rawPatterns (cmdNormalized tables d) := by
  have hstripped : HasOne (dangerousUnix ++ dangerousWindows) (cmdStripped tables d) ↔
      HasOne (dangerousUnix ++ dangerousWindows) (cmdStripped tables c) := by
    rw [← hasOne_map_oneSigma sigmaFree_dangerous, stripped_disguise h, hasOne_map_oneSigma sigmaFree_dangerous]
  rw [refused_iff, ← hstripped]
  constructor
  · rintro (⟨p, hp, hin⟩ | hlen | ⟨p, hp, hin⟩ | hone)
    · exact Or.inr (Or.inr ⟨p, List.mem_append_left _ hp, hin⟩)
    · exact Or.inl hlen
    · by_cases hraw : '\\' ∈ p.toList
      · exact Or.inr (Or.inr ⟨p, List.mem_append_right _ (List.mem_filter.mpr ⟨hp, decide_eq_true hraw⟩), hin⟩)
      · exact Or.inr (Or.inl ⟨p, hp, stripped_of_normalized (tidy_dangerous p hp) hraw hin⟩)
    · exact Or.inr (Or.inl hone)
  · rintro (hlen | hone | ⟨p, hp, hin⟩)
    · exact Or.inr (Or.inl hlen)
    · exact Or.inr (Or.inr (Or.inr hone))
    · rcases List.mem_append.mp hp with hp | hp
      · exact Or.inl ⟨p, hp, hin⟩
      · exact Or.inr (Or.inr (Or.inl ⟨p, (List.mem_filter.mp hp).1, hin⟩))

def asciiTables : UnicodeTables := ⟨fun c => [c], fun _ _ => false⟩

theorem disguise_echo : Disguise "echo $(curl x)".toList "echo $(cu\\rl x)".toList :=
  Disguise.append_left "echo $(cu".toList (.escape ⟨rfl, by decide⟩ (Disguise.refl "l x)".toList))

/-- The substitution that is refused is accepted with a backslash in its command. -/
theorem refused_disguise_iff_echo : Refused asciiTables "echo $(cu\\rl x)" ↔
    10000 < (utf8 "echo $(cu\\rl x)").length ∨
      HasOne (dangerousUnix ++ dangerousWindows) (cmdStripped asciiTables "echo $(curl x)") ∨
      HasOne rawPatterns (cmdNormalized asciiTables "echo $(cu\\rl x)") :=
  refused_disguise_iff disguise_echo

/-- It occurs in neither text. -/
def Absent (u v p : List Char) : Prop := ¬p <:+: u ∧ ¬p <:+: v

instance (u v p : List Char) : Decidable (Absent u v p) := inferInstanceAs (Decidable (_ ∧ _))

theorem absent_ofList {u v p : List Char} (h : Absent u v p) : Absent u v (String.ofList p).toList := by
  rwa [String.toList_ofList]

theorem accepted_echo : checkCommand asciiTables "echo $(cu\\rl x)" = .ok () := by
  let u : List Char := ['e', 'c', 'h', 'o', ' ', '$', '(', 'c', 'u', '\\', 'r', 'l', ' ', 'x', ')']
  let v : List Char := ['e', 'c', 'h', 'o', ' ', '$', '(', 'c', 'u', 'r', 'l', ' ', 'x', ')']
  have hu : cmdNormalized asciiTables "echo $(cu\\rl x)" = u := by decide +kernel
  have hv : cmdStripped asciiTables "echo $(cu\\rl x)" = v := by decide +kernel
  have hbypass : ∀ p ∈ bypassPatterns, Absent u u p.toList := by
    simp only [bypassPatterns, List.forall_mem_cons]
    repeat refine And.intro (absent_ofList (by decide +kernel)) ?_
    exact fun p hp => absurd hp List.not_mem_nil
  have hdangerous : ∀ p ∈ dangerousUnix ++ dangerousWindows, Absent u v p.toList := by
    simp only [dangerousUnix, dangerousWindows, List.cons_append, List.nil_append, List.forall_mem_cons]
    repeat refine And.intro (absent_ofList (by decide +kernel)) ?_
    exact fun p hp => absurd hp List.not_mem_nil
  by_contra hrefused
  have hcases := refused_iff.mp hrefused
  rw [hu, hv] at hcases
  rcases hcases with ⟨p, hp, hin⟩ | hlen | ⟨p, hp, hin⟩ | ⟨p, hp, hin⟩
  · exact (hbypass p hp).1 hin
  · exact absurd hlen (by decide +kernel)
  · exact (hdangerous p hp).1 hin
  · exact (hdangerous p hp).2 hin

/-- A refused command, written in another way, is accepted. -/
theorem disguise_accepted : ¬ ∀ c d : String, Refused asciiTables c → Disguise c.toList d.toList →
    Refused asciiTables d := by
  intro h
  have hmem : "$(curl" ∈ bypassPatterns := by decide +kernel
  have hin : "$(curl".toList <:+: cmdNormalized asciiTables "echo $(curl x)" := by decide +kernel
  have hrefused : Refused asciiTables "echo $(curl x)" := refused_iff.mpr (Or.inl ⟨_, hmem, hin⟩)
  exact h _ _ hrefused disguise_echo accepted_echo

end VelocityMcp.Registry.ShellGuard
