import VelocityMcp.Lib.Bytes

/-!
# Lib.Paths — paths with `.` and `..`, and the directories they lead to

* `resolve dir cs`: where the components `cs` lead from the directory `dir`.
* `detour cs`: what a list of components amounts to, from wherever one starts: climb some levels, then go down by
  names (`resolve_eq`).  `leadsInto_iff`: when that ends below a given directory.  `StaysBelow`: it does not climb.
-/

namespace Lib

inductive Component (ν : Type) where
  | rootDir
  | curDir
  | parentDir
  | normal (name : ν)
deriving DecidableEq, Repr

variable {ν : Type}

/-! ## Where components lead -/

/-- One component, from a directory that is given by the names on the way to it from the root.  The parent of the
root is the root. -/
def walk (dir : List ν) : Component ν → List ν
  | .rootDir => []
  | .curDir => dir
  | .parentDir => dir.dropLast
  | .normal name => dir ++ [name]

def resolve (dir : List ν) (cs : List (Component ν)) : List ν := cs.foldl walk dir

theorem resolve_append (dir : List ν) (cs ds : List (Component ν)) :
    resolve dir (cs ++ ds) = resolve (resolve dir cs) ds := List.foldl_append

/-- Go to the root or climb, then go down. -/
structure Detour (ν : Type) where
  fromRoot : Bool
  ups : ℕ
  names : List ν

namespace Detour

/-- The directory from which a detour goes down. -/
def turn (d : Detour ν) (dir : List ν) : List ν := if d.fromRoot then [] else dir.take (dir.length - d.ups)

/-- A detour and one component more: `..` takes back the last name, and where there is none climbs. -/
def add (d : Detour ν) : Component ν → Detour ν
  | .rootDir => ⟨true, 0, []⟩
  | .curDir => d
  | .parentDir => if d.names.isEmpty then ⟨d.fromRoot, d.ups + 1, []⟩ else ⟨d.fromRoot, d.ups, d.names.dropLast⟩
  | .normal name => ⟨d.fromRoot, d.ups, d.names ++ [name]⟩

theorem walk_turn (d : Detour ν) (dir : List ν) (c : Component ν) :
    walk (d.turn dir ++ d.names) c = (d.add c).turn dir ++ (d.add c).names := by
  cases c with
  | rootDir => rfl
  | curDir => rfl
  | normal name => exact List.append_assoc _ _ _
  | parentDir =>
    show (d.turn dir ++ d.names).dropLast = _
    unfold add
    by_cases h : d.names = []
    · rw [if_pos (List.isEmpty_iff.mpr h), h, List.append_nil, List.append_nil]
      unfold turn
      cases d.fromRoot with
      | true => rfl
      | false =>
        show (dir.take (dir.length - d.ups)).dropLast = dir.take (dir.length - (d.ups + 1))
        rw [List.dropLast_eq_take, List.length_take, List.take_take]
        congr 1
        omega
    · rw [if_neg (mt List.isEmpty_iff.mp h), List.dropLast_append_of_ne_nil h]
      rfl

end Detour

def detour (cs : List (Component ν)) : Detour ν := cs.foldl Detour.add ⟨false, 0, []⟩

/-- **What components amount to.** -/
theorem resolve_eq (dir : List ν) (cs : List (Component ν)) :
    resolve dir cs = (detour cs).turn dir ++ (detour cs).names := by
  have hfold : ∀ (cs : List (Component ν)) (d : Detour ν),
      cs.foldl walk (d.turn dir ++ d.names) = (cs.foldl Detour.add d).turn dir ++ (cs.foldl Detour.add d).names := by
    intro cs
    induction cs with
    | nil => exact fun d => rfl
    | cons c cs ih =>
      intro d
      rw [List.foldl_cons, List.foldl_cons, Detour.walk_turn]
      exact ih (d.add c)
  have hstart : (⟨false, 0, []⟩ : Detour ν).turn dir ++ [] = dir := by
    rw [List.append_nil]
    exact List.take_length
  rw [resolve, detour, ← hfold cs ⟨false, 0, []⟩]
  exact congrArg (cs.foldl walk) hstart.symm

/-- The components lead from `dir` into `q`: the directory that they climb to is below `q`, or their names lead from
it down to `q`. -/
def LeadsInto (dir : List ν) (cs : List (Component ν)) (q : List ν) : Prop :=
  q <+: (detour cs).turn dir ∨ ∃ m, q = (detour cs).turn dir ++ m ∧ m <+: (detour cs).names

/-- **Containment.** -/
theorem leadsInto_iff {dir : List ν} {cs : List (Component ν)} {q : List ν} :
    LeadsInto dir cs q ↔ q <+: resolve dir cs := by
  rw [resolve_eq]
  constructor
  · rintro (h | ⟨m, rfl, hm⟩)
    · exact List.prefix_append_of_prefix h
    · exact (List.prefix_append_right_inj _).mpr hm
  · intro h
    rcases List.prefix_or_prefix_of_prefix h (List.prefix_append _ _) with hq | hq
    · exact Or.inl hq
    · obtain ⟨m, rfl⟩ := hq
      exact Or.inr ⟨m, rfl, (List.prefix_append_right_inj _).mp h⟩

/-- Neither a root nor a `..` leads above the start. -/
structure StaysBelow (cs : List (Component ν)) : Prop where
  relative : (detour cs).fromRoot = false
  level : (detour cs).ups = 0

/-- A path: bytes, with `/` between the components. -/
abbrev PathBuf := Bytes

def isAbsolute (p : PathBuf) : Bool := p.head? = some 0x2f

/-- The component between two slashes, if it is one. -/
def component (part : Bytes) : Option (Component Bytes) :=
  if part = [] ∨ part = [0x2e] then none
  else if part = [0x2e, 0x2e] then some .parentDir
  else some (.normal part)

/-- The components of a path.  A `.` counts only at the beginning of a relative path. -/
def components (p : PathBuf) : List (Component Bytes) :=
  let parts := p.splitOn 0x2f
  (if isAbsolute p then [.rootDir] else if parts.head? = some [0x2e] then [.curDir] else []) ++
    parts.filterMap component

/-- `q` after `p`; an absolute `q` takes the place of `p`. -/
def join (p q : PathBuf) : PathBuf :=
  if isAbsolute q then q
  else if p = [] ∨ p.getLast? = some 0x2f then p ++ q
  else p ++ 0x2f :: q

theorem components_append_slash {base : Bytes} (hbase : base ≠ []) (rest : Bytes) :
    components (base ++ 0x2f :: rest) = components base ++ (rest.splitOn 0x2f).filterMap component := by
  have habs : isAbsolute (base ++ 0x2f :: rest) = isAbsolute base := by
    rw [isAbsolute, isAbsolute, List.head?_append_of_ne_nil _ hbase]
  have hhead : (base.splitOn 0x2f ++ rest.splitOn 0x2f).head? = (base.splitOn 0x2f).head? :=
    List.head?_append_of_ne_nil _ (List.splitOn_ne_nil 0x2f base)
  simp only [components, List.splitOn_append_cons_self, habs, hhead, List.filterMap_append, List.append_assoc]

/-- The components of `q` are the first ones of `p`. -/
def startsWith (p q : PathBuf) : Bool := (components q).isPrefixOf (components p)

theorem startsWith_iff {p q : PathBuf} :
    startsWith p q = true ↔ ∃ ds, components p = components q ++ ds := by
  rw [startsWith, List.isPrefixOf_iff_prefix]
  exact ⟨fun ⟨ds, h⟩ => ⟨ds, h.symm⟩, fun ⟨ds, h⟩ => ⟨ds, h.symm⟩⟩

/-- The dots of a path are no part of the test. -/
example : startsWith (join (utf8 "/a") (utf8 "../b")) (utf8 "/a") = true ∧
    resolve [] (components (join (utf8 "/a") (utf8 "../b"))) = [utf8 "b"] := by decide +kernel

end Lib
