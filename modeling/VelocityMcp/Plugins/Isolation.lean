import VelocityMcp.Lib.Lines
import VelocityMcp.Plugins.Marketplace

/-!
# Plugins.Isolation — do plugins lie in directories of their own? (`plugins/marketplace.rs`)

`plugins_isolated_iff`: which ids do.
-/

namespace VelocityMcp.Plugins

open Lib

/-! ## Where an identifier leads -/

/-- The identifiers that pass the check and name no directory. -/
def NamesNothing (id : String) : Prop := id = "" ∨ id = "."

instance (id : String) : Decidable (NamesNothing id) := inferInstanceAs (Decidable (id = "" ∨ id = "."))

theorem components_append_part {base part : Bytes} (hbase : base ≠ []) (hpart : 0x2f ∉ part) :
    components (base ++ 0x2f :: part) = components base ++ (component part).toList := by
  rw [components_append_slash hbase, List.splitOn_eq_singleton hpart]
  cases hcomponent : component part with
  | none => rw [List.filterMap_cons_none hcomponent]; rfl
  | some c => rw [List.filterMap_cons_some hcomponent]; rfl

theorem join_ne_nil (p : PathBuf) {q : PathBuf} (hq : q ≠ []) : join p q ≠ [] := by
  rw [join]
  split_ifs
  · exact hq
  · exact List.append_ne_nil_of_right_ne_nil p hq
  · exact List.append_ne_nil_of_right_ne_nil p (List.cons_ne_nil _ _)

theorem getLast?_join (p : PathBuf) {q : PathBuf} (hq : q ≠ []) : (join p q).getLast? = q.getLast? := by
  rw [join]
  split_ifs
  · rfl
  · rw [List.getLast?_append_of_ne_nil _ hq]
  · rw [List.getLast?_append_of_ne_nil _ (List.cons_ne_nil _ _), List.getLast?_cons_of_ne_nil hq]

theorem utf8_eq_encode (s : String) : utf8 s = encode s.toList := by
  rw [← utf8_ofList, String.ofList_toList]

theorem component_accepted {id : String} (hid : AcceptedId id) :
    component (utf8 id) = if NamesNothing id then none else some (.normal (utf8 id)) := by
  have hempty : utf8 id = [] ↔ id = "" := utf8_injective.eq_iff' rfl
  have hdot : utf8 id = [0x2e] ↔ id = "." := utf8_injective.eq_iff' rfl
  have hparent : utf8 id ≠ [0x2e, 0x2e] := by
    intro h
    obtain rfl : id = ".." := utf8_injective h
    exact hid.1 List.infix_rfl
  rw [component, if_neg hparent]
  exact if_congr (or_congr hempty hdot) rfl rfl

variable {h : Host} {m : Marketplace} {id : String}

/-- **Where an accepted identifier leads.** -/
theorem place_installPath (hid : AcceptedId id) : h.place (m.installPath id) =
    h.place m.pluginsPath ++ if NamesNothing id then [] else [h.key (utf8 id)] := by
  have hslash : (0x2f : UInt8) ∉ utf8 id := fun hmem => hid.2.1 (by
    rw [utf8_eq_encode] at hmem
    exact mem_of_mem_encode (by decide) rfl hmem)
  have hne : m.pluginsPath ≠ [] := join_ne_nil _ (by decide)
  have hlast : m.pluginsPath.getLast? ≠ some 0x2f := by
    rw [Marketplace.pluginsPath, getLast?_join _ (by decide)]
    decide
  have hrelative : isAbsolute (utf8 id) = false := by
    rw [isAbsolute, decide_eq_false_iff_not]
    exact fun hhead => hslash (List.mem_of_head? hhead)
  have hjoin : m.installPath id = m.pluginsPath ++ 0x2f :: utf8 id := by
    rw [Marketplace.installPath, join, hrelative, if_neg Bool.false_ne_true, if_neg (not_or.mpr ⟨hne, hlast⟩)]
  rw [Host.place, Host.place, hjoin, components_append_part hne hslash, component_accepted hid, resolve_append]
  split_ifs
  · rw [List.append_nil]
    rfl
  · show (resolve h.cwd (components m.pluginsPath) ++ [utf8 id]).map h.key = _
    rw [List.map_append]
    rfl

/-! ## Isolation -/

section Statement

variable (h : Host) (m : Marketplace)

/-- An uninstallation of `a`, installed where `install` puts it, changes nothing of `b`'s directory, or of the plugins
directory and what it lies in. -/
def LeavesAlone (a b : String) : Prop :=
  ∀ (m' : Marketplace) (disk : Disk) (installed : InstalledPlugin) (removal : Removal) (save : SaveAnswers),
    m'.installed a = some installed → installed.installPath = m.installPath a →
    ∀ q, h.place (m.installPath b) <+: q ∨ q <+: h.place m.pluginsPath →
      (m'.uninstall h disk a removal save).1.2.dirs q = disk.dirs q

/-- Two plugins in directories of their own. -/
structure Isolated (a b : String) : Prop where
  distinct : h.place (m.installPath a) ≠ h.place (m.installPath b)
  apart : ¬ h.place (m.installPath a) <+: h.place (m.installPath b) ∧
    ¬ h.place (m.installPath b) <+: h.place (m.installPath a)
  proper : (∃ name, h.place (m.installPath a) = h.place m.pluginsPath ++ [name]) ∧
    ∃ name, h.place (m.installPath b) = h.place m.pluginsPath ++ [name]
  alone : LeavesAlone h m a b ∧ LeavesAlone h m b a

end Statement

theorem dirs_save (m : Marketplace) (a : SaveAnswers) (disk : Disk) : (m.save a disk).1.dirs = disk.dirs := by
  unfold Marketplace.save
  cases a.before with
  | error e => rfl
  | ok u => cases a.writeInstalled <;> rfl

theorem dirs_uninstall {disk : Disk} {installed : InstalledPlugin} (hid : m.installed id = some installed)
    (removal : Removal) (save : SaveAnswers) {q : List Bytes} (hq : ¬ h.place installed.installPath <+: q) :
    (m.uninstall h disk id removal save).1.2.dirs q = disk.dirs q := by
  have hremove : (removeExisting (h.place installed.installPath) removal disk.dirs).1 q = disk.dirs q := by
    unfold removeExisting
    split_ifs
    · cases removal with
      | done => exact if_neg hq
      | failed e left => exact if_neg hq
    · rfl
  rw [Marketplace.uninstall, hid]
  dsimp only
  rcases heq : removeExisting (h.place installed.installPath) removal disk.dirs with ⟨dirs, e | u⟩
  · rw [heq] at hremove
    exact hremove
  · rw [heq] at hremove
    show (Marketplace.save _ save _).1.dirs q = _
    rw [dirs_save]
    exact hremove

theorem leavesAlone_of_names {a b : String} {x y : Bytes}
    (ha : h.place (m.installPath a) = h.place m.pluginsPath ++ [x])
    (hb : h.place (m.installPath b) = h.place m.pluginsPath ++ [y]) (hne : x ≠ y) : LeavesAlone h m a b := by
  intro m' disk installed removal save hid hpath q hq
  refine dirs_uninstall hid removal save ?_
  rw [hpath, ha]
  intro hin
  rcases hq with hq | hq
  · rw [hb] at hq
    have hlen : (h.place m.pluginsPath ++ [x]).length ≤ (h.place m.pluginsPath ++ [y]).length := by simp
    have heq := List.prefix_of_prefix_length_le hin hq hlen
    rw [List.prefix_append_right_inj, List.cons_prefix_cons] at heq
    exact hne heq.1
  · have hle := (hin.trans hq).length_le
    rw [List.length_append, List.length_singleton] at hle
    omega

/-- **Two accepted plugins are isolated** exactly if neither names the plugins directory itself, and the file system
tells their names apart. -/
theorem plugins_isolated_iff {a b : String} (ha : AcceptedId a) (hb : AcceptedId b) :
    Isolated h m a b ↔ ¬ NamesNothing a ∧ ¬ NamesNothing b ∧ h.key (utf8 a) ≠ h.key (utf8 b) := by
  have hnames : ∀ {id : String}, AcceptedId id →
      (∃ name, h.place (m.installPath id) = h.place m.pluginsPath ++ [name]) → ¬ NamesNothing id := by
    rintro id hid ⟨name, hname⟩ hnothing
    rw [place_installPath hid, if_pos hnothing, List.append_right_inj] at hname
    cases hname
  constructor
  · intro hisolated
    refine ⟨hnames ha hisolated.proper.1, hnames hb hisolated.proper.2, fun hkey => hisolated.distinct ?_⟩
    rw [place_installPath ha, place_installPath hb, if_neg (hnames ha hisolated.proper.1),
      if_neg (hnames hb hisolated.proper.2), hkey]
  · rintro ⟨hna, hnb, hkey⟩
    have hpa : h.place (m.installPath a) = h.place m.pluginsPath ++ [h.key (utf8 a)] := by
      rw [place_installPath ha, if_neg hna]
    have hpb : h.place (m.installPath b) = h.place m.pluginsPath ++ [h.key (utf8 b)] := by
      rw [place_installPath hb, if_neg hnb]
    have hbelow : ∀ {x y : Bytes}, x ≠ y → ¬ h.place m.pluginsPath ++ [x] <+: h.place m.pluginsPath ++ [y] :=
      fun hne hin => hne (by rw [List.prefix_append_right_inj, List.cons_prefix_cons] at hin; exact hin.1)
    exact
      { distinct := fun heq => hbelow hkey (by rw [← hpa, ← hpb, heq])
        apart := by rw [hpa, hpb]; exact ⟨hbelow hkey, hbelow hkey.symm⟩
        proper := ⟨⟨_, hpa⟩, ⟨_, hpb⟩⟩
        alone := ⟨leavesAlone_of_names hpa hpb hkey, leavesAlone_of_names hpb hpa hkey.symm⟩ }

/-- Two plugins with plain names. -/
theorem plugins_isolated_iff_two : Isolated plainHost (market none) "x" "y" ↔
    ¬ NamesNothing "x" ∧ ¬ NamesNothing "y" ∧ plainHost.key (utf8 "x") ≠ plainHost.key (utf8 "y") :=
  plugins_isolated_iff (by decide) (by decide)

/-- The empty identifier is accepted, and the plugin lies in the plugins directory itself. -/
theorem not_isolated_empty : ¬ ∀ a b, AcceptedId a → AcceptedId b → a ≠ b → Isolated plainHost (market none) a b := by
  intro hall
  obtain ⟨name, hname⟩ := (hall "" "x" (by decide) (by decide) (by decide)).proper.1
  rw [place_installPath (by decide), if_pos (by decide), List.append_right_inj] at hname
  cases hname

end VelocityMcp.Plugins
