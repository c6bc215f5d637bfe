import VelocityMcp.Lib.Layout
import VelocityMcp.Stdio.JsonMode

/-!
# Sandbox.FileAccess — which paths a sandbox lets through (`sandbox.rs`)

`access_contained_iff`: which of them stay in the directory that they start with.
-/

namespace VelocityMcp.FileAccess

open Lib

/-! ## The file system -/

/-- A file system, the working directory of the process, and the number of links that a path may follow. -/
structure World where
  layout : Layout Bytes
  cwd : List Bytes
  isDir : layout.node cwd = some .dir
  maxLinks : ℕ

/-- A part of a path as the system reads it: an empty one, at the end or between two slashes, is the directory. -/
def rawComponent (part : Bytes) : Component Bytes := (component part).getD .curDir

def rawComponents (p : PathBuf) : List (Component Bytes) :=
  (if isAbsolute p then [.rootDir] else []) ++ (p.splitOn 0x2f).map rawComponent

namespace World

variable (w : World)

/-- `canonicalize`, as the components of the path that it answers. -/
def canonicalize (p : PathBuf) : Option (List (Component Bytes)) :=
  if p = [] ∨ 0 ∈ p then none
  else (w.layout.follow w.maxLinks w.cwd (rawComponents p)).map fun place => .rootDir :: place.map .normal

/-- Where a path leads, as far as it exists, and by its names from there; and the links that are left. -/
def settled (p : PathBuf) : ℕ × List Bytes := w.layout.settle w.maxLinks w.cwd (components p)

end World

/-! ## The check -/

structure ProcessCapabilities where
  allowedPaths : List PathBuf
  allowNetwork : Bool

inductive ViolationCategory where
  | fileSystem
  | network
  | interpreter
  | memory
  | timeout
deriving DecidableEq, Repr

structure SandboxViolation where
  category : ViolationCategory
  detail : String
  timestampMs : ℕ
deriving DecidableEq, Repr

/-- The working directory, what the process may do, and what it was refused. -/
structure Sandbox where
  workDir : PathBuf
  capabilities : ProcessCapabilities
  violations : List SandboxViolation

def ProcessCapabilities.isPathAllowed (w : World) (caps : ProcessCapabilities) (path : PathBuf) : Bool :=
  if caps.allowedPaths = [] ∧ caps.allowNetwork = true then true
  else
    let canonical : Bool :=
      match w.canonicalize path with
      | some canon => caps.allowedPaths.any fun a => ((w.canonicalize a).getD (components a)).isPrefixOf canon
      | none => false
    canonical || caps.allowedPaths.any fun a => startsWith path a

/-- `record_violation`, at the given time. -/
def Sandbox.recordViolation (s : Sandbox) (now : ℕ) (category : ViolationCategory) (detail : String) : Sandbox :=
  { s with violations := s.violations ++ [⟨category, detail, now⟩] }

/-- A path passes if it starts with the work directory, if it is canonically below an allowed path, or if it starts
with one. -/
def Sandbox.checkFileAccess (w : World) (now : ℕ) (s : Sandbox) (path : PathBuf) : Sandbox × Except String Unit :=
  if startsWith path s.workDir then (s, .ok ())
  else if s.capabilities.isPathAllowed w path then (s, .ok ())
  else
    let display := Stdio.fromUtf8Lossy path
    (s.recordViolation now .fileSystem s!"File system access to '{display}'",
      .error s!"Security Violation: File system access to '{display}' blocked by sandbox")

/-! ## Containment -/

section Statement

variable (w : World) (s : Sandbox)

/-- The directories that a sandbox gives access to. -/
def Sandbox.roots : List PathBuf := s.workDir :: s.capabilities.allowedPaths

/-- Where the path leads is below where one of these directories leads. -/
def Inside (path : PathBuf) : Prop := ∃ d ∈ s.roots, (w.settled d).2 <+: (w.settled path).2

/-- What passes the check is inside, and what does not leaves one violation more. -/
structure Contained (now : ℕ) (path : PathBuf) : Prop where
  inside : (s.checkFileAccess w now path).2 = .ok () → Inside w s path
  refused : ∀ e, (s.checkFileAccess w now path).2 = .error e →
    ∃ v, (s.checkFileAccess w now path).1 = { s with violations := s.violations ++ [v] }

/-- Where the path, as it is written, starts with one of these directories, what it adds leads from there into one of
them: the components, with the targets of links in their places, climb no further than to a place below it, or go down
through it again. -/
def KeepsIn (path : PathBuf) : Prop := ∀ d ∈ s.roots, ∀ ds, components path = components d ++ ds →
  ∃ q ∈ s.roots, LeadsInto (w.settled d).2 (w.layout.unlink (w.settled d).1 (w.settled d).2 ds) (w.settled q).2

end Statement

variable {w : World} {s : Sandbox}

/-! ## The canonical test -/

theorem filter_rawComponents (p : PathBuf) :
    (rawComponents p).filter (· ≠ .curDir) = (components p).filter (· ≠ .curDir) := by
  have hparts : ∀ parts : List Bytes, (parts.map rawComponent).filter (· ≠ .curDir) =
      (parts.filterMap component).filter (· ≠ .curDir) := fun parts => by
    induction parts with
    | nil => rfl
    | cons part parts ih =>
      cases hpart : component part with
      | none =>
        rw [List.map_cons, List.filterMap_cons_none hpart, rawComponent, hpart, Option.getD_none,
          List.filter_cons_of_neg (by simp), ih]
      | some c =>
        rw [List.map_cons, List.filterMap_cons_some hpart, rawComponent, hpart, Option.getD_some, List.filter_cons,
          List.filter_cons, ih]
  rw [rawComponents, components, List.filter_append, List.filter_append, hparts]
  congr 1
  split_ifs with habs hdot
  · rfl
  · rfl
  · rfl

theorem settle_rawComponents (n : ℕ) (dir : List Bytes) (p : PathBuf) :
    w.layout.settle n dir (rawComponents p) = w.layout.settle n dir (components p) := by
  have hskip : ∀ cs, w.layout.settle n dir (cs.filter (· ≠ .curDir)) = w.layout.settle n dir cs :=
    Layout.settle_filter _ (fun c hc => decide_eq_true hc) n dir
  rw [← hskip, filter_rawComponents, hskip]

theorem canonicalize_eq_some {p : PathBuf} {canon : List (Component Bytes)} (h : w.canonicalize p = some canon) :
    canon = .rootDir :: (w.settled p).2.map .normal ∧ w.layout.Placed (w.settled p).2 := by
  rw [World.canonicalize] at h
  split_ifs at h
  obtain ⟨place, hplace, rfl⟩ := Option.map_eq_some_iff.mp h
  have hsettled : (w.settled p).2 = place := by
    rw [World.settled, ← settle_rawComponents]
    exact Layout.settle_of_follow hplace
  rw [hsettled]
  exact ⟨rfl, Layout.placed_of_follow (Or.inl w.isDir) hplace⟩

theorem map_normal_prefix {p q : List Bytes} (h : p.map Component.normal <+: q.map Component.normal) : p <+: q := by
  obtain ⟨p', hp', heq⟩ := List.prefix_map_iff.mp h
  rwa [List.map_injective_iff.mpr (fun _ _ h => Component.normal.inj h) heq]

/-- **The canonical test is sound**, for an allowed path with at least one component. -/
theorem inside_of_canonicalize {path a : PathBuf} {canon : List (Component Bytes)}
    (hcanon : w.canonicalize path = some canon) (ha : components a ≠ [])
    (h : (w.canonicalize a).getD (components a) <+: canon) : (w.settled a).2 <+: (w.settled path).2 := by
  obtain ⟨rfl, hplaced⟩ := canonicalize_eq_some hcanon
  cases hcanon' : w.canonicalize a with
  | some canon' =>
    obtain ⟨rfl, -⟩ := canonicalize_eq_some hcanon'
    rw [hcanon', Option.getD_some] at h
    exact map_normal_prefix (List.cons_prefix_cons.mp h).2
  | none =>
    -- the allowed path as it is written is one without dots, and is on the way
    rw [hcanon', Option.getD_none] at h
    cases hcs : components a with
    | nil => exact absurd hcs ha
    | cons c cs =>
      rw [hcs] at h
      obtain ⟨rfl, hcs'⟩ := List.cons_prefix_cons.mp h
      obtain ⟨names, hnames, rfl⟩ := List.prefix_map_iff.mp hcs'
      have hsettled : w.settled a = (w.maxLinks, names) := by
        rw [World.settled, hcs, Layout.settle_cons_of_none rfl]
        exact Layout.settle_placed w.maxLinks (Layout.placed_onTheWay hplaced hnames)
      rw [hsettled]
      exact hnames

/-! ## The check -/

/-- Where the path leads, from a directory that it starts with. -/
theorem prefix_settled_iff {path d : PathBuf} {ds : List (Component Bytes)} (h : components path = components d ++ ds)
    {q : List Bytes} : q <+: (w.settled path).2 ↔
      LeadsInto (w.settled d).2 (w.layout.unlink (w.settled d).1 (w.settled d).2 ds) q := by
  rw [leadsInto_iff, Layout.resolve_unlink, World.settled, h, Layout.settle_append]
  rfl

/-- **Where a path passes a lexical test**, it is inside exactly if what follows keeps in. -/
theorem inside_iff_keepsIn {path d : PathBuf} (hd : d ∈ s.roots) (h : startsWith path d = true) :
    Inside w s path ↔ KeepsIn w s path := by
  constructor
  · rintro ⟨q, hq, hin⟩ d' - ds hds
    refine ⟨q, hq, ?_⟩
    rwa [← prefix_settled_iff hds]
  · intro hkeep
    obtain ⟨ds, hds⟩ := startsWith_iff.mp h
    obtain ⟨q, hq, hin⟩ := hkeep d hd ds hds
    refine ⟨q, hq, ?_⟩
    rwa [prefix_settled_iff hds]

theorem startsWith_of_components_nil {path a : PathBuf} (ha : components a = []) : startsWith path a = true := by
  rw [startsWith_iff, ha]
  exact ⟨components path, rfl⟩

theorem isPathAllowed_cases (hcaps : s.capabilities.allowedPaths ≠ [] ∨ s.capabilities.allowNetwork = false)
    {path : PathBuf} (h : s.capabilities.isPathAllowed w path = true) :
    (∃ a ∈ s.capabilities.allowedPaths, startsWith path a = true) ∨ Inside w s path := by
  rw [ProcessCapabilities.isPathAllowed, if_neg (by rintro ⟨h, h'⟩; simp [h, h'] at hcaps), Bool.or_eq_true,
    List.any_eq_true] at h
  rcases h with hcanonical | hlexical
  · cases hcanon : w.canonicalize path with
    | none =>
      rw [hcanon] at hcanonical
      cases hcanonical
    | some canon =>
      rw [hcanon] at hcanonical
      obtain ⟨a, ha, hin⟩ := List.any_eq_true.mp hcanonical
      by_cases hempty : components a = []
      · exact Or.inl ⟨a, ha, startsWith_of_components_nil hempty⟩
      · exact Or.inr ⟨a, List.mem_cons_of_mem _ ha,
          inside_of_canonicalize hcanon hempty (List.isPrefixOf_iff_prefix.mp hin)⟩
  · exact Or.inl hlexical

theorem checkFileAccess_of_startsWith (now : ℕ) {path d : PathBuf} (hd : d ∈ s.roots)
    (h : startsWith path d = true) : s.checkFileAccess w now path = (s, .ok ()) := by
  rw [Sandbox.checkFileAccess]
  rcases List.mem_cons.mp hd with rfl | hallowed
  · rw [if_pos h]
  · have hany : s.capabilities.allowedPaths.any (fun a => startsWith path a) = true :=
      List.any_eq_true.mpr ⟨d, hallowed, h⟩
    have hpass : s.capabilities.isPathAllowed w path = true := by
      rw [ProcessCapabilities.isPathAllowed, hany, Bool.or_true]
      split_ifs <;> rfl
    rw [hpass, if_pos rfl]
    split_ifs <;> rfl

/-- **The check contains a path** exactly if it does not lead out of the directory that it starts with. -/
theorem access_contained_iff (hcaps : s.capabilities.allowedPaths ≠ [] ∨ s.capabilities.allowNetwork = false) (now : ℕ)
    (path : PathBuf) : Contained w s now path ↔ KeepsIn w s path := by
  constructor
  · intro h d hd ds hds
    have hstart : startsWith path d = true := startsWith_iff.mpr ⟨ds, hds⟩
    have hin := h.inside (by rw [checkFileAccess_of_startsWith now hd hstart])
    exact (inside_iff_keepsIn hd hstart).mp hin d hd ds hds
  · intro hkeep
    constructor
    · intro hok
      rw [Sandbox.checkFileAccess] at hok
      split_ifs at hok with hwork hallowed
      · exact (inside_iff_keepsIn List.mem_cons_self hwork).mpr hkeep
      · rcases isPathAllowed_cases hcaps hallowed with ⟨a, ha, hstart⟩ | hin
        · exact (inside_iff_keepsIn (List.mem_cons_of_mem _ ha) hstart).mpr hkeep
        · exact hin
    · intro e he
      rw [Sandbox.checkFileAccess] at he ⊢
      split_ifs at he ⊢ with hwork hallowed
      exact ⟨_, rfl⟩

/-! ## A way out -/

/-- A work directory with a link in it, and another directory. -/
def entries : List (List Bytes × Node Bytes) :=
  [([], .dir), ([utf8 "work"], .dir), ([utf8 "work", utf8 "out"], .link [.parentDir, .normal (utf8 "etc")]),
    ([utf8 "etc"], .dir), ([utf8 "etc", utf8 "passwd"], .file)]

def smallWorld : World where
  layout :=
    { node := fun p => entries.lookup p
      root := rfl
      parent := fun p name h => by
        have hall : ∀ e ∈ entries, e.1 ≠ [] → entries.lookup e.1.dropLast = some .dir := by decide +kernel
        obtain ⟨node, hnode⟩ := Option.ne_none_iff_exists'.mp h
        obtain ⟨l₁, l₂, hsplit, -⟩ := List.lookup_eq_some_iff.mp hnode
        have hmem : (p ++ [name], node) ∈ entries := by
          rw [hsplit]
          exact List.mem_append_right _ List.mem_cons_self
        have hparent := hall _ hmem (List.append_ne_nil_of_right_ne_nil p (List.cons_ne_nil name []))
        rwa [List.dropLast_concat] at hparent }
  cwd := []
  isDir := rfl
  maxLinks := 40

def workOnly : Sandbox := ⟨utf8 "/work", ⟨[], false⟩, []⟩

/-- A path in the work directory. -/
theorem access_contained_iff_work : Contained smallWorld workOnly 0 (utf8 "/work/a") ↔
    KeepsIn smallWorld workOnly (utf8 "/work/a") :=
  access_contained_iff (Or.inr rfl) 0 (utf8 "/work/a")

/-- A path that climbs out of the work directory passes, and so does one that leaves it by a link. -/
theorem not_contained :
    ¬ Contained smallWorld workOnly 0 (utf8 "/work/../etc/passwd") ∧
      ¬ Contained smallWorld workOnly 0 (utf8 "/work/out/passwd") := by
  constructor
  · intro h
    have hin := h.inside (by decide +kernel)
    unfold Inside at hin
    exact absurd hin (by decide +kernel)
  · intro h
    have hin := h.inside (by decide +kernel)
    unfold Inside at hin
    exact absurd hin (by decide +kernel)

end VelocityMcp.FileAccess
