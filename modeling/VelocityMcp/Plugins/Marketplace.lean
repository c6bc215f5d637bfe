import Mathlib.Logic.Function.Basic
import VelocityMcp.Lib.Paths
import VelocityMcp.Lib.Text

/-!
# Plugins.Marketplace — plugins are installed, removed, switched and updated (`plugins/marketplace.rs`)

`atomic_iff`: when each operation is atomic.
-/

namespace VelocityMcp.Plugins

open Lib

/-! ## Plugins -/

structure PluginMetadata where
  id : String
  version : String
  downloadUrl : String
  checksum : String
deriving DecidableEq, Repr

structure InstalledPlugin where
  metadata : PluginMetadata
  installPath : PathBuf
  installedAt : String
  enabled : Bool
deriving DecidableEq, Repr

/-- `installed`, and what is read back from the file it is saved in. -/
abbrev Installed := String → Option InstalledPlugin

/-- `Marketplace`; of the index, its plugins. -/
structure Marketplace where
  plugins : List PluginMetadata
  installed : Installed
  storagePath : PathBuf

/-- The marketplace with an entry of its map made, or taken out. -/
def Marketplace.enter (m : Marketplace) (id : String) (entry : Option InstalledPlugin) : Marketplace :=
  { m with installed := Function.update m.installed id entry }

def Marketplace.pluginsPath (m : Marketplace) : PathBuf := join m.storagePath (utf8 "plugins")

def Marketplace.installPath (m : Marketplace) (id : String) : PathBuf := join m.pluginsPath (utf8 id)

/-! ## Directories -/

/-- The working directory of the process, and what the file system compares of a name. -/
structure Host where
  cwd : List Bytes
  key : Bytes → Bytes

def Host.place (h : Host) (path : PathBuf) : List Bytes := (resolve h.cwd (components path)).map h.key

/-- A directory, with the manifest that can be read in it. -/
structure Dir where
  manifest : Option PluginMetadata
deriving DecidableEq, Repr

abbrev Dirs := List Bytes → Option Dir

def createDirAll (p : List Bytes) (dirs : Dirs) : Dirs := fun q =>
  if q <+: p ∧ dirs q = none then some ⟨none⟩ else dirs q

/-- Something was done to a directory and what is in it. -/
def changeBelow (p : List Bytes) (left : Dirs) (dirs : Dirs) : Dirs := fun q => if p <+: q then left q else dirs q

/-- `remove_dir_all`: it works, or fails and leaves something. -/
inductive Removal where
  | done
  | failed (text : String) (left : Dirs)

def Removal.left : Removal → Dirs
  | done => fun _ => none
  | failed _ left => left

def removeDirAll (p : List Bytes) (r : Removal) (dirs : Dirs) : Dirs := changeBelow p r.left dirs

/-- What is on the disk: the file `installed.json`, and the directories of the plugins. -/
structure Disk where
  saved : Installed
  dirs : Dirs

/-! ## Saving -/

/-- What the steps of `save` answer; where the last one fails, what it leaves is read back. -/
structure SaveAnswers where
  createDir : Except String Unit
  serializeIndex : Except String Unit
  writeIndex : Except String Unit
  serializeInstalled : Except String Unit
  writeInstalled : Except (String × Installed) Unit

/-- The steps that do not touch the file of the installed plugins. -/
def SaveAnswers.before (a : SaveAnswers) : Except String Unit := do
  a.createDir.mapError fun e => s!"Failed to create marketplace directory: {e}"
  a.serializeIndex.mapError fun e => s!"Failed to serialize index: {e}"
  a.writeIndex.mapError fun e => s!"Failed to write index: {e}"
  a.serializeInstalled.mapError fun e => s!"Failed to serialize installed plugins: {e}"

def Marketplace.save (m : Marketplace) (a : SaveAnswers) (disk : Disk) : Disk × Except String Unit :=
  match a.before with
  | .error e => (disk, .error e)
  | .ok () =>
    match a.writeInstalled with
    | .error (e, left) => ({ disk with saved := left }, .error s!"Failed to write installed plugins: {e}")
    | .ok () => ({ disk with saved := m.installed }, .ok ())

/-! ## Installing -/

/-- What the steps of `install` answer, and what is below the install path after each of them. -/
structure InstallAnswers where
  createDir : Except String Unit
  curl : Except String Bool
  afterCurl : Dirs
  readArchive : Except String Bytes
  tar : Except String Bool
  afterTar : Dirs
  cleanUp : Removal
  serializeManifest : Except String Unit
  writeManifest : Except (String × Option PluginMetadata) Unit
  now : String
  save : SaveAnswers

/-- An id that passes the check against leaving the plugins' directory. -/
def AcceptedId (id : String) : Prop := ¬ Occurs ".." id ∧ '/' ∉ id.toList ∧ '\\' ∉ id.toList

instance (id : String) : Decidable (AcceptedId id) :=
  inferInstanceAs (Decidable (¬ Occurs ".." id ∧ '/' ∉ id.toList ∧ '\\' ∉ id.toList))

def Marketplace.getPlugin (m : Marketplace) (id : String) : Option PluginMetadata := m.plugins.find? (·.id = id)

def Marketplace.checkInstall (m : Marketplace) (id : String) : Except String PluginMetadata :=
  if (m.installed id).isSome then .error s!"Plugin '{id}' is already installed"
  else
    match m.getPlugin id with
    | none => .error s!"Plugin '{id}' not found in marketplace"
    | some metadata =>
      if AcceptedId metadata.id then .ok metadata
      else .error s!"Invalid plugin ID '{metadata.id}': must not contain path separators or '..'"

/-- What the check of the archive finds. -/
inductive Verified where
  | fine
  | unread (text : String)
  | mismatch (hash : String)

section Install

variable (hexHash : Bytes → String) (metadata : PluginMetadata) (a : InstallAnswers)

/-- The check of the archive, if there is a checksum; `hexHash` is SHA-256 in hexadecimal digits. -/
def verify : Verified :=
  if metadata.checksum = "" then .fine
  else
    match a.readArchive with
    | .error e => .unread e
    | .ok bytes => if hexHash bytes ≠ metadata.checksum then .mismatch (hexHash bytes) else .fine

/-- The archive is loaded, checked and unpacked. -/
def download (p : List Bytes) (dirs : Dirs) : Dirs × Except String Unit :=
  if metadata.downloadUrl = "" then (dirs, .ok ())
  else
    match a.curl with
    | .error e => (dirs, .error s!"Failed to run curl: {e}. Is it installed?")
    | .ok false =>
      (removeDirAll p a.cleanUp (changeBelow p a.afterCurl dirs),
        .error s!"Download failed for '{metadata.id}' from {metadata.downloadUrl}")
    | .ok true =>
      let loaded := changeBelow p a.afterCurl dirs
      match verify hexHash metadata a with
      | .unread e => (loaded, .error s!"Failed to read downloaded archive: {e}")
      | .mismatch hash =>
        (removeDirAll p a.cleanUp loaded,
          .error s!"Checksum mismatch for '{metadata.id}': expected {metadata.checksum}, got {hash}")
      | .fine =>
        match a.tar with
        | .error e => (loaded, .error s!"Failed to run tar: {e}")
        | .ok false =>
          (removeDirAll p a.cleanUp (changeBelow p a.afterTar loaded),
            .error s!"Failed to extract plugin archive for '{metadata.id}'")
        | .ok true => (changeBelow p a.afterTar loaded, .ok ())

def writeManifest (p : List Bytes) (dirs : Dirs) : Dirs × Except String Unit :=
  match a.serializeManifest with
  | .error e => (dirs, .error s!"Failed to serialize manifest: {e}")
  | .ok () =>
    match a.writeManifest with
    | .error (e, left) => (Function.update dirs p (some ⟨left⟩), .error s!"Failed to write manifest: {e}")
    | .ok () => (Function.update dirs p (some ⟨some metadata⟩), .ok ())

end Install

def removeExisting (p : List Bytes) (removal : Removal) (dirs : Dirs) : Dirs × Except String Unit :=
  if (dirs p).isSome then
    match removal with
    | .failed e left => (changeBelow p left dirs, .error s!"Failed to remove plugin directory: {e}")
    | .done => (removeDirAll p .done dirs, .ok ())
  else (dirs, .ok ())

/-- What a call answers, and the state after it. -/
abbrev Result (α : Type) := (Marketplace × Disk) × Except String α

section Operations

variable (h : Host) (hexHash : Bytes → String)

/-- What each step of the operating system answers, and what it leaves where it fails, is chosen from outside. -/
def Marketplace.install (m : Marketplace) (disk : Disk) (id : String) (a : InstallAnswers) : Result InstalledPlugin :=
  match m.checkInstall id with
  | .error e => ((m, disk), .error e)
  | .ok metadata =>
    let path := m.installPath metadata.id
    let p := h.place path
    match a.createDir with
    -- what was made at most is a directory on the way
    | .error e => ((m, disk), .error s!"Failed to create plugin directory: {e}")
    | .ok () =>
      match download hexHash metadata a p (createDirAll p disk.dirs) with
      | (dirs, .error e) => ((m, { disk with dirs := dirs }), .error e)
      | (dirs, .ok ()) =>
        match writeManifest metadata a p dirs with
        | (dirs, .error e) => ((m, { disk with dirs := dirs }), .error e)
        | (dirs, .ok ()) =>
          let installed : InstalledPlugin := ⟨metadata, path, a.now, true⟩
          let m := m.enter id (some installed)
          match m.save a.save { disk with dirs := dirs } with
          | (disk, .error e) => ((m, disk), .error e)
          | (disk, .ok ()) => ((m, disk), .ok installed)

/-- `uninstall`; what the removal of the directory answers, and the save. -/
def Marketplace.uninstall (m : Marketplace) (disk : Disk) (id : String) (removal : Removal) (save : SaveAnswers) :
    Result Unit :=
  match m.installed id with
  | none => ((m, disk), .error s!"Plugin '{id}' is not installed")
  | some installed =>
    let m := m.enter id none
    match removeExisting (h.place installed.installPath) removal disk.dirs with
    | (dirs, .error e) => ((m, { disk with dirs := dirs }), .error e)
    | (dirs, .ok ()) =>
      match m.save save { disk with dirs := dirs } with
      | (disk, answer) => ((m, disk), answer)

def Marketplace.setEnabled (m : Marketplace) (disk : Disk) (id : String) (enabled : Bool) (save : SaveAnswers) :
    Result Unit :=
  match m.installed id with
  | none => ((m, disk), .error s!"Plugin '{id}' is not installed")
  | some installed =>
    let m := m.enter id (some { installed with enabled := enabled })
    match m.save save disk with
    | (disk, answer) => ((m, disk), answer)

def Marketplace.updatePlugin (m : Marketplace) (disk : Disk) (id : String) (removal : Removal) (save : SaveAnswers)
    (a : InstallAnswers) : Result InstalledPlugin :=
  match m.installed id with
  | none => ((m, disk), .error s!"Plugin '{id}' is not installed")
  | some _ =>
    match m.uninstall h disk id removal save with
    | (s, .error e) => (s, .error e)
    | ((m, disk), .ok ()) => m.install h hexHash disk id a

end Operations

/-! ## Operations that fail -/

/-- An operation of the marketplace, with what the network and the disk answer. -/
inductive Op where
  | install (id : String) (a : InstallAnswers)
  | uninstall (id : String) (removal : Removal) (save : SaveAnswers)
  | setEnabled (id : String) (enabled : Bool) (save : SaveAnswers)
  | updatePlugin (id : String) (removal : Removal) (save : SaveAnswers) (a : InstallAnswers)

section Statement

variable (h : Host) (hexHash : Bytes → String)

def SameInstalled (i i' : Installed) : Prop := ∀ id, (i' id).map (·.metadata.version) = (i id).map (·.metadata.version)

def SameDirs (plugins : List Bytes) (d d' : Dirs) : Prop := ∀ name,
  (d' (plugins ++ [name])).map (·.manifest.map (·.version)) = (d (plugins ++ [name])).map (·.manifest.map (·.version))

/-- Two states describe the same installed plugins. -/
structure Same (m : Marketplace) (disk : Disk) (s : Marketplace × Disk) : Prop where
  memory : SameInstalled m.installed s.1.installed
  saved : SameInstalled disk.saved s.2.saved
  dirs : SameDirs (h.place m.pluginsPath) disk.dirs s.2.dirs

/-- Where a call fails, the state describes what it described before. -/
def SameOnError {α : Type} (m : Marketplace) (disk : Disk) (r : Result α) : Prop :=
  ∀ e, r.2 = .error e → Same h m disk r.1

/-- An operation that fails leaves the installed plugins as they were, in memory, in the saved file and in the plugin
directories. -/
def Atomic (m : Marketplace) (disk : Disk) : Op → Prop
  | .install id a => SameOnError h m disk (m.install h hexHash disk id a)
  | .uninstall id removal save => SameOnError h m disk (m.uninstall h disk id removal save)
  | .setEnabled id enabled save => SameOnError h m disk (m.setEnabled disk id enabled save)
  | .updatePlugin id removal save a => SameOnError h m disk (m.updatePlugin h hexHash disk id removal save a)

/-! ## When they are atomic -/

/-- The steps of an installation between the creation of its directory and the save. -/
inductive Stop where
  | curl
  | download
  | read
  | checksum
  | tar
  | extract
  | serialize
  | manifest (left : Option PluginMetadata)

def InstallAnswers.archiveStop (metadata : PluginMetadata) (a : InstallAnswers) : Option Stop :=
  if metadata.downloadUrl = "" then none
  else
    match a.curl, verify hexHash metadata a, a.tar with
    | .error _, _, _ => some .curl
    | .ok false, _, _ => some .download
    | .ok true, .unread _, _ => some .read
    | .ok true, .mismatch _, _ => some .checksum
    | .ok true, .fine, .error _ => some .tar
    | .ok true, .fine, .ok false => some .extract
    | .ok true, .fine, .ok true => none

def InstallAnswers.stop (metadata : PluginMetadata) (a : InstallAnswers) : Option Stop :=
  match a.archiveStop hexHash metadata, a.serializeManifest, a.writeManifest with
  | some s, _, _ => some s
  | none, .error _, _ => some .serialize
  | none, .ok (), .error (_, left) => some (.manifest left)
  | none, .ok (), .ok () => none

/-- The directories, once the archive is unpacked in a new one. -/
def InstallAnswers.unpacked (metadata : PluginMetadata) (a : InstallAnswers) (p : List Bytes) (dirs : Dirs) : Dirs :=
  if metadata.downloadUrl = "" then createDirAll p dirs else changeBelow p a.afterTar (createDirAll p dirs)

/-- What is left where an installation stops: only a failed download, a wrong checksum and a failed extraction are
cleaned up. -/
def Stop.left (metadata : PluginMetadata) (a : InstallAnswers) (p : List Bytes) (dirs : Dirs) : Stop → Dirs
  | curl => createDirAll p dirs
  | download => removeDirAll p a.cleanUp (createDirAll p dirs)
  | read => changeBelow p a.afterCurl (createDirAll p dirs)
  | checksum => removeDirAll p a.cleanUp (createDirAll p dirs)
  | tar => changeBelow p a.afterCurl (createDirAll p dirs)
  | extract => removeDirAll p a.cleanUp (createDirAll p dirs)
  | serialize => a.unpacked metadata p dirs
  | manifest left => Function.update (a.unpacked metadata p dirs) p (some ⟨left⟩)

/-- The directories of an installation that has come to the save. -/
def InstallAnswers.complete (metadata : PluginMetadata) (a : InstallAnswers) (p : List Bytes) (dirs : Dirs) : Dirs :=
  Function.update (a.unpacked metadata p dirs) p (some ⟨some metadata⟩)

def SaveAnswers.Succeeds (a : SaveAnswers) : Prop := a.before = .ok () ∧ a.writeInstalled = .ok ()

/-- What the file of the installed plugins holds after a save that fails. -/
def SaveAnswers.left (a : SaveAnswers) (saved : Installed) : Installed :=
  match a.before, a.writeInstalled with
  | .ok (), .error (_, left) => left
  | _, _ => saved

/-- The directories after an uninstallation that has come to the save. -/
def removed (p : List Bytes) (dirs : Dirs) : Dirs := if (dirs p).isSome then removeDirAll p .done dirs else dirs

def RemovalWorks (p : List Bytes) (dirs : Dirs) (removal : Removal) : Prop := (dirs p).isSome → removal = .done

/-- An installation is atomic if it does not fail in the save, and what it leaves otherwise is what was there. -/
def InstallKeeps (m : Marketplace) (disk : Disk) (id : String) (a : InstallAnswers) : Prop :=
  ∀ metadata, m.checkInstall id = .ok metadata → a.createDir = .ok () →
    match a.stop hexHash metadata with
    | none => a.save.Succeeds
    | some s => SameDirs (h.place m.pluginsPath) disk.dirs
        (s.left metadata a (h.place (m.installPath metadata.id)) disk.dirs)

/-- An uninstallation is atomic if it does not fail at all. -/
def UninstallKeeps (m : Marketplace) (disk : Disk) (id : String) (removal : Removal) (save : SaveAnswers) : Prop :=
  ∀ installed, m.installed id = some installed →
    RemovalWorks (h.place installed.installPath) disk.dirs removal ∧ save.Succeeds

/-- A switch is atomic if a save that fails leaves the plugins in the file. -/
def SwitchKeeps (m : Marketplace) (disk : Disk) (id : String) (save : SaveAnswers) : Prop :=
  m.installed id ≠ none → SameInstalled disk.saved (save.left disk.saved)

/-- An update is atomic if it does not fail, or fails in its last save only, and all is as it was. -/
def UpdateKeeps (m : Marketplace) (disk : Disk) (id : String) (removal : Removal) (save : SaveAnswers)
    (a : InstallAnswers) : Prop :=
  ∀ installed, m.installed id = some installed →
    RemovalWorks (h.place installed.installPath) disk.dirs removal ∧ save.Succeeds ∧
      ∃ metadata, m.getPlugin id = some metadata ∧ AcceptedId metadata.id ∧ a.createDir = .ok () ∧
        a.stop hexHash metadata = none ∧ (a.save.Succeeds ∨ metadata.version = installed.metadata.version ∧
          SameInstalled disk.saved (a.save.left (Function.update m.installed id none)) ∧
          SameDirs (h.place m.pluginsPath) disk.dirs (a.complete metadata (h.place (m.installPath metadata.id))
            (removed (h.place installed.installPath) disk.dirs)))

/-- When an operation leaves memory and disk alike. -/
def HoldsWhen (m : Marketplace) (disk : Disk) : Op → Prop
  | .install id a => InstallKeeps h hexHash m disk id a
  | .uninstall id removal save => UninstallKeeps h m disk id removal save
  | .setEnabled id _ save => SwitchKeeps m disk id save
  | .updatePlugin id removal save a => UpdateKeeps h hexHash m disk id removal save a

end Statement

/-! ## What the operations do -/

variable {h : Host} {hexHash : Bytes → String} {m : Marketplace} {disk : Disk} {id : String}

theorem installed_enter_self (m : Marketplace) (id : String) (entry : Option InstalledPlugin) :
    (m.enter id entry).installed id = entry := Function.update_self _ _ _

theorem installed_enter_of_ne (m : Marketplace) {other : String} (hne : other ≠ id) (entry : Option InstalledPlugin) :
    (m.enter id entry).installed other = m.installed other := Function.update_of_ne hne _ _

theorem changeBelow_changeBelow (p : List Bytes) (d e dirs : Dirs) :
    changeBelow p d (changeBelow p e dirs) = changeBelow p d dirs := by
  funext q
  unfold changeBelow
  split_ifs <;> rfl

theorem save_eq (m : Marketplace) (disk : Disk) (a : SaveAnswers) :
    (a.Succeeds ∧ m.save a disk = ({ disk with saved := m.installed }, .ok ())) ∨
    (¬ a.Succeeds ∧ ∃ e, m.save a disk = ({ disk with saved := a.left disk.saved }, .error e)) := by
  unfold Marketplace.save SaveAnswers.Succeeds SaveAnswers.left
  cases a.before with
  | error e => exact Or.inr ⟨(fun hok => nomatch hok.1), e, rfl⟩
  | ok u =>
    cases a.writeInstalled with
    | error e => exact Or.inr ⟨(fun hok => nomatch hok.2), _, rfl⟩
    | ok u => exact Or.inl ⟨⟨rfl, rfl⟩, rfl⟩

theorem save_left_of_succeeds {a : SaveAnswers} (ha : a.Succeeds) (saved : Installed) : a.left saved = saved := by
  rw [SaveAnswers.left, ha.1, ha.2]

theorem download_of_none {metadata : PluginMetadata} {a : InstallAnswers}
    (hstop : a.archiveStop hexHash metadata = none) (p : List Bytes) (dirs : Dirs) :
    download hexHash metadata a p (createDirAll p dirs) = (a.unpacked metadata p dirs, .ok ()) := by
  rw [InstallAnswers.archiveStop] at hstop
  rw [download, InstallAnswers.unpacked]
  split_ifs at hstop ⊢ with hurl
  · rfl
  · split at hstop <;> try cases hstop
    rename_i hcurl hverify htar
    simp only [hcurl, hverify, htar, changeBelow_changeBelow]

theorem download_of_some {metadata : PluginMetadata} {a : InstallAnswers} {s : Stop}
    (hstop : a.archiveStop hexHash metadata = some s) (p : List Bytes) (dirs : Dirs) :
    ∃ e, download hexHash metadata a p (createDirAll p dirs) = (s.left metadata a p dirs, .error e) := by
  rw [InstallAnswers.archiveStop] at hstop
  rw [download]
  split_ifs at hstop ⊢ with hurl
  cases hcurl : a.curl with
  | error e =>
    simp only [hcurl, Option.some.injEq] at hstop
    obtain rfl := hstop
    exact ⟨_, rfl⟩
  | ok success =>
    cases success with
    | false =>
      simp only [hcurl, Option.some.injEq] at hstop
      obtain rfl := hstop
      exact ⟨_, by simp only [Stop.left, removeDirAll, changeBelow_changeBelow]; rfl⟩
    | true =>
      cases hverify : verify hexHash metadata a with
      | unread e =>
        simp only [hcurl, hverify, Option.some.injEq] at hstop
        obtain rfl := hstop
        exact ⟨_, rfl⟩
      | mismatch hash =>
        simp only [hcurl, hverify, Option.some.injEq] at hstop
        obtain rfl := hstop
        exact ⟨_, by simp only [Stop.left, removeDirAll, changeBelow_changeBelow]; rfl⟩
      | fine =>
        cases htar : a.tar with
        | error e =>
          simp only [hcurl, hverify, htar, Option.some.injEq] at hstop
          obtain rfl := hstop
          exact ⟨_, rfl⟩
        | ok success =>
          cases success with
          | false =>
            simp only [hcurl, hverify, htar, Option.some.injEq] at hstop
            obtain rfl := hstop
            exact ⟨_, by simp only [Stop.left, removeDirAll, changeBelow_changeBelow]; rfl⟩
          | true =>
            simp only [hcurl, hverify, htar] at hstop
            cases hstop

/-- **What an installation does**: it stops before anything is done, or between the creation of its directory and the
save, or it comes to the save. -/
theorem install_cases (h : Host) (hexHash : Bytes → String) (m : Marketplace) (disk : Disk) (id : String)
    (a : InstallAnswers) :
    (∃ e, m.checkInstall id = .error e ∧ m.install h hexHash disk id a = ((m, disk), .error e)) ∨
    (∃ metadata e e', m.checkInstall id = .ok metadata ∧ a.createDir = .error e ∧
      m.install h hexHash disk id a = ((m, disk), .error e')) ∨
    (∃ metadata s e, m.checkInstall id = .ok metadata ∧ a.createDir = .ok () ∧ a.stop hexHash metadata = some s ∧
      m.install h hexHash disk id a =
        ((m, { disk with dirs := s.left metadata a (h.place (m.installPath metadata.id)) disk.dirs }), .error e)) ∨
    (∃ metadata installed, m.checkInstall id = .ok metadata ∧ a.createDir = .ok () ∧ a.stop hexHash metadata = none ∧
      installed.metadata = metadata ∧
      ((a.save.Succeeds ∧ (m.install h hexHash disk id a).2 = .ok installed) ∨
        (¬ a.save.Succeeds ∧ ∃ e, m.install h hexHash disk id a =
          ((m.enter id (some installed),
            ⟨a.save.left disk.saved, a.complete metadata (h.place (m.installPath metadata.id)) disk.dirs⟩),
            .error e)))) := by
  cases hcheck : m.checkInstall id with
  | error e => exact Or.inl ⟨e, rfl, by rw [Marketplace.install, hcheck]⟩
  | ok metadata =>
    refine Or.inr ?_
    cases hcreate : a.createDir with
    | error e =>
      exact Or.inl ⟨metadata, e, s!"Failed to create plugin directory: {e}", rfl, rfl,
        by simp only [Marketplace.install, hcheck, hcreate]⟩
    | ok u =>
      refine Or.inr ?_
      -- the archive may stop it anywhere, then the manifest, then the saving of the table
      cases harchive : a.archiveStop hexHash metadata with
      | some s =>
        obtain ⟨e, hdownload⟩ := download_of_some harchive (h.place (m.installPath metadata.id)) disk.dirs
        refine Or.inl ⟨metadata, s, e, rfl, rfl, by rw [InstallAnswers.stop, harchive], ?_⟩
        simp only [Marketplace.install, hcheck, hcreate, hdownload]
      | none =>
        have hdownload := download_of_none harchive (h.place (m.installPath metadata.id)) disk.dirs
        cases hserialize : a.serializeManifest with
        | error e =>
          refine Or.inl ⟨metadata, .serialize, s!"Failed to serialize manifest: {e}", rfl, rfl,
            by simp only [InstallAnswers.stop, harchive, hserialize], ?_⟩
          simp only [Marketplace.install, hcheck, hcreate, hdownload, writeManifest, hserialize, Stop.left]
        | ok u =>
          cases hwrite : a.writeManifest with
          | error e =>
            refine Or.inl ⟨metadata, .manifest e.2, s!"Failed to write manifest: {e.1}", rfl, rfl,
              by simp only [InstallAnswers.stop, harchive, hserialize, hwrite], ?_⟩
            simp only [Marketplace.install, hcheck, hcreate, hdownload, writeManifest, hserialize, hwrite, Stop.left]
          | ok u =>
            refine Or.inr ⟨metadata, ⟨metadata, m.installPath metadata.id, a.now, true⟩, rfl, rfl,
              by simp only [InstallAnswers.stop, harchive, hserialize, hwrite], rfl, ?_⟩
            simp only [Marketplace.install, hcheck, hcreate, hdownload, writeManifest, hserialize, hwrite]
            rcases save_eq (m.enter id (some ⟨metadata, m.installPath metadata.id, a.now, true⟩))
                ⟨disk.saved, Function.update (a.unpacked metadata (h.place (m.installPath metadata.id)) disk.dirs)
                  (h.place (m.installPath metadata.id)) (some ⟨some metadata⟩)⟩ a.save with
              ⟨hok, hsave⟩ | ⟨hfail, e, hsave⟩
            · exact Or.inl ⟨hok, by rw [hsave]⟩
            · exact Or.inr ⟨hfail, e, by rw [hsave]; rfl⟩

theorem checkInstall_eq_ok {metadata : PluginMetadata} : m.checkInstall id = .ok metadata ↔
    m.installed id = none ∧ m.getPlugin id = some metadata ∧ AcceptedId metadata.id := by
  rw [Marketplace.checkInstall]
  cases hinstalled : m.installed id with
  | some installed => exact ⟨nofun, nofun⟩
  | none =>
    rw [if_neg (by decide)]
    cases m.getPlugin id with
    | none => exact ⟨nofun, nofun⟩
    | some found =>
      by_cases haccepted : AcceptedId found.id
      · simp only [if_pos haccepted, Except.ok.injEq, Option.some.injEq, true_and]
        exact ⟨fun heq => ⟨heq, heq ▸ haccepted⟩, fun h => h.1⟩
      · simp only [if_neg haccepted]
        exact ⟨nofun, fun h => absurd (Option.some.inj h.2.1 ▸ h.2.2) haccepted⟩

theorem removeExisting_eq (p : List Bytes) (removal : Removal) (dirs : Dirs) :
    (RemovalWorks p dirs removal ∧ removeExisting p removal dirs = (removed p dirs, .ok ())) ∨
      (¬ RemovalWorks p dirs removal ∧ ∃ dirs' e, removeExisting p removal dirs = (dirs', .error e)) := by
  unfold removeExisting RemovalWorks removed
  by_cases hexists : (dirs p).isSome = true
  · rw [if_pos hexists, if_pos hexists]
    cases removal with
    | done => exact Or.inl ⟨fun _ => rfl, rfl⟩
    | failed e left => exact Or.inr ⟨(fun hworks => nomatch hworks hexists), _, _, rfl⟩
  · rw [if_neg hexists, if_neg hexists]
    exact Or.inl ⟨fun hsome => absurd hsome hexists, rfl⟩

/-- **What an uninstallation does**: the plugin is gone from the memory in any case. -/
theorem uninstall_cases (h : Host) (disk : Disk) {installed : InstalledPlugin} (hid : m.installed id = some installed)
    (removal : Removal) (save : SaveAnswers) :
    (RemovalWorks (h.place installed.installPath) disk.dirs removal ∧ save.Succeeds ∧
      m.uninstall h disk id removal save = ((m.enter id none,
        ⟨(m.enter id none).installed, removed (h.place installed.installPath) disk.dirs⟩), .ok ())) ∨
    (¬ (RemovalWorks (h.place installed.installPath) disk.dirs removal ∧ save.Succeeds) ∧ ∃ disk' e,
      m.uninstall h disk id removal save = ((m.enter id none, disk'), .error e)) := by
  rcases removeExisting_eq (h.place installed.installPath) removal disk.dirs with
    ⟨hworks, hremove⟩ | ⟨hfails, dirs', e, hremove⟩
  · have heq : m.uninstall h disk id removal save = ((m.enter id none,
        ((m.enter id none).save save ⟨disk.saved, removed (h.place installed.installPath) disk.dirs⟩).1),
        ((m.enter id none).save save ⟨disk.saved, removed (h.place installed.installPath) disk.dirs⟩).2) := by
      simp only [Marketplace.uninstall, hid, hremove]
    rcases save_eq (m.enter id none) ⟨disk.saved, removed (h.place installed.installPath) disk.dirs⟩ save with
      ⟨hok, hsave⟩ | ⟨hfail, e, hsave⟩
    · exact Or.inl ⟨hworks, hok, by rw [heq, hsave]⟩
    · exact Or.inr ⟨fun hboth => hfail hboth.2, _, e, by rw [heq, hsave]⟩
  · exact Or.inr ⟨fun hboth => hfails hboth.1, _, e, by simp only [Marketplace.uninstall, hid, hremove]; rfl⟩

/-! ## Atomicity -/

theorem Same.refl (m : Marketplace) (disk : Disk) : Same h m disk (m, disk) :=
  ⟨fun _ => rfl, fun _ => rfl, fun _ => rfl⟩

theorem not_sameInstalled_update_none {i : Installed} {installed : InstalledPlugin} (hid : i id = some installed) :
    ¬ SameInstalled i (Function.update i id none) := by
  intro h
  have hid' := h id
  rw [Function.update_self, hid] at hid'
  cases hid'

theorem not_sameInstalled_update_some {i : Installed} (hid : i id = none) (installed : InstalledPlugin) :
    ¬ SameInstalled i (Function.update i id (some installed)) := by
  intro h
  have hid' := h id
  rw [Function.update_self, hid] at hid'
  cases hid'

theorem atomic_install_iff (a : InstallAnswers) :
    SameOnError h m disk (m.install h hexHash disk id a) ↔ InstallKeeps h hexHash m disk id a := by
  unfold SameOnError InstallKeeps
  rcases install_cases h hexHash m disk id a with ⟨e, hcheck, heq⟩ | ⟨metadata, e, e', hcheck, hcreate, heq⟩ |
    ⟨metadata, s, e, hcheck, hcreate, hstop, heq⟩ |
    ⟨metadata, installed, hcheck, hcreate, hstop, hmetadata, hsave⟩
  · rw [heq]
    exact ⟨fun _ _ hcheck' => absurd (hcheck.symm.trans hcheck') nofun, fun _ _ _ => Same.refl m disk⟩
  · rw [heq]
    exact ⟨fun _ _ _ hcreate' => absurd (hcreate.symm.trans hcreate') nofun, fun _ _ _ => Same.refl m disk⟩
  · rw [heq]
    constructor
    · intro hatomic metadata' hcheck' _
      obtain rfl := Except.ok.inj (hcheck.symm.trans hcheck')
      rw [hstop]
      exact (hatomic e rfl).dirs
    · intro hwhen _ _
      have hdirs := hwhen metadata hcheck hcreate
      rw [hstop] at hdirs
      exact ⟨fun _ => rfl, fun _ => rfl, hdirs⟩
  · rcases hsave with ⟨hok, hvalue⟩ | ⟨hfail, e, heq⟩
    · constructor
      · intro _ metadata' hcheck' _
        obtain rfl := Except.ok.inj (hcheck.symm.trans hcheck')
        rw [hstop]
        exact hok
      · intro _ e he
        rw [hvalue] at he
        cases he
    · rw [heq]
      constructor
      · intro hatomic
        exact absurd (hatomic e rfl).memory (not_sameInstalled_update_some (checkInstall_eq_ok.mp hcheck).1 installed)
      · intro hwhen
        have hok := hwhen metadata hcheck hcreate
        rw [hstop] at hok
        exact absurd hok hfail

theorem atomic_uninstall_iff (removal : Removal) (save : SaveAnswers) :
    SameOnError h m disk (m.uninstall h disk id removal save) ↔ UninstallKeeps h m disk id removal save := by
  unfold SameOnError UninstallKeeps
  cases hid : m.installed id with
  | none =>
    have heq : m.uninstall h disk id removal save = ((m, disk), .error s!"Plugin '{id}' is not installed") := by
      simp only [Marketplace.uninstall, hid]
    rw [heq]
    exact ⟨(fun _ _ h => nomatch h), fun _ _ _ => Same.refl m disk⟩
  | some installed =>
    rcases uninstall_cases h disk hid removal save with ⟨hworks, hok, heq⟩ | ⟨hfail, disk', e, heq⟩
    · rw [heq]
      refine ⟨fun _ installed' h => ?_, fun _ e he => nomatch he⟩
      obtain rfl := Option.some.inj h
      exact ⟨hworks, hok⟩
    · rw [heq]
      exact ⟨fun hatomic => absurd (hatomic e rfl).memory (not_sameInstalled_update_none hid),
        fun hwhen => absurd (hwhen installed rfl) hfail⟩

theorem atomic_setEnabled_iff (enabled : Bool) (save : SaveAnswers) :
    SameOnError h m disk (m.setEnabled disk id enabled save) ↔ SwitchKeeps m disk id save := by
  unfold SameOnError SwitchKeeps
  cases hid : m.installed id with
  | none =>
    have heq : m.setEnabled disk id enabled save = ((m, disk), .error s!"Plugin '{id}' is not installed") := by
      simp only [Marketplace.setEnabled, hid]
    rw [heq]
    exact ⟨fun _ h => absurd rfl h, fun _ _ _ => Same.refl m disk⟩
  | some installed =>
    set m' : Marketplace := m.enter id (some { installed with enabled := enabled }) with hm'
    have heq : m.setEnabled disk id enabled save = ((m', (m'.save save disk).1), (m'.save save disk).2) := by
      simp only [Marketplace.setEnabled, hid, hm']
    rw [heq]
    rcases save_eq m' disk save with ⟨hok, hsave⟩ | ⟨hfail, e, hsave⟩
    · rw [hsave, save_left_of_succeeds hok]
      exact ⟨fun _ _ _ => rfl, fun _ e he => nomatch he⟩
    · rw [hsave]
      -- the flag is switched in memory, but the version stays
      have hmemory : SameInstalled m.installed m'.installed := fun other => by
        rw [hm']
        by_cases hother : other = id
        · rw [hother, installed_enter_self, hid]
          rfl
        · rw [installed_enter_of_ne m hother]
      exact ⟨fun hatomic _ => (hatomic e rfl).saved, fun hwhen _ _ => ⟨hmemory, hwhen (by simp), fun _ => rfl⟩⟩

theorem atomic_updatePlugin_iff (removal : Removal) (save : SaveAnswers) (a : InstallAnswers) :
    SameOnError h m disk (m.updatePlugin h hexHash disk id removal save a) ↔
      UpdateKeeps h hexHash m disk id removal save a := by
  unfold SameOnError UpdateKeeps
  cases hid : m.installed id with
  | none =>
    have heq : m.updatePlugin h hexHash disk id removal save a =
        ((m, disk), .error s!"Plugin '{id}' is not installed") := by
      simp only [Marketplace.updatePlugin, hid]
    rw [heq]
    exact ⟨(fun _ _ h => nomatch h), fun _ _ _ => Same.refl m disk⟩
  | some installed =>
    have hgone := not_sameInstalled_update_none hid
    rcases uninstall_cases h disk hid removal save with ⟨hworks, hok, huninstall⟩ | ⟨hfail, disk', e, huninstall⟩
    · set m' : Marketplace := m.enter id none with hm'
      set disk' : Disk := ⟨m'.installed, removed (h.place installed.installPath) disk.dirs⟩ with hdisk'
      have heq : m.updatePlugin h hexHash disk id removal save a = m'.install h hexHash disk' id a := by
        simp only [Marketplace.updatePlugin, hid, huninstall]
      rw [heq]
      -- where the installation fails before its save, the plugin is gone
      have hlost : ∀ {disk'' e}, (m'.install h hexHash disk' id a) = ((m', disk''), .error e) →
          ¬ ∀ e, (m'.install h hexHash disk' id a).2 = .error e → Same h m disk (m'.install h hexHash disk' id a).1 :=
        fun heq hall => hgone (by
          have hsame := hall _ (by rw [heq])
          rw [heq] at hsame
          exact hsame.memory)
      rcases install_cases h hexHash m' disk' id a with ⟨e, hcheck, hinstall⟩ |
        ⟨metadata, e, e', hcheck, hcreate, hinstall⟩ | ⟨metadata, s, e, hcheck, hcreate, hstop, hinstall⟩ |
        ⟨metadata, installed', hcheck, hcreate, hstop, hmetadata, hsave⟩
      · refine ⟨fun hall => absurd hall (hlost hinstall), fun hwhen => ?_⟩
        obtain ⟨-, -, metadata, hget, haccepted, -⟩ := hwhen installed rfl
        have hcheck' : m'.checkInstall id = .ok metadata :=
          checkInstall_eq_ok.mpr ⟨Function.update_self _ _ _, hget, haccepted⟩
        exact absurd (hcheck.symm.trans hcheck') nofun
      · refine ⟨fun hall => absurd hall (hlost hinstall), fun hwhen => ?_⟩
        obtain ⟨-, -, _, -, -, hcreate', -⟩ := hwhen installed rfl
        exact absurd (hcreate.symm.trans hcreate') nofun
      · refine ⟨fun hall => absurd hall (hlost hinstall), fun hwhen => ?_⟩
        obtain ⟨-, -, metadata', hget, haccepted, -, hstop', -⟩ := hwhen installed rfl
        have hcheck' : m'.checkInstall id = .ok metadata' :=
          checkInstall_eq_ok.mpr ⟨Function.update_self _ _ _, hget, haccepted⟩
        obtain rfl := Except.ok.inj (hcheck.symm.trans hcheck')
        exact absurd (hstop.symm.trans hstop') nofun
      · obtain ⟨-, hget, haccepted⟩ := checkInstall_eq_ok.mp hcheck
        rcases hsave with ⟨hsucceeds, hvalue⟩ | ⟨hfails, e, hinstall⟩
        · constructor
          · intro _ installed'' hinstalled''
            obtain rfl := Option.some.inj hinstalled''
            exact ⟨hworks, hok, metadata, hget, haccepted, hcreate, hstop, Or.inl hsucceeds⟩
          · intro _ e he
            rw [hvalue] at he
            cases he
        · rw [hinstall]
          -- in memory, the new version stands for the old one
          have hmemory : SameInstalled m.installed (m'.enter id (some installed')).installed ↔
              metadata.version = installed.metadata.version := by
            constructor
            · intro hsame
              have hself := hsame id
              rw [installed_enter_self, hid, Option.map_some, Option.map_some, hmetadata] at hself
              exact Option.some.inj hself
            · intro hversion other
              by_cases hother : other = id
              · rw [hother, installed_enter_self, hid, Option.map_some, Option.map_some, hmetadata, hversion]
              · rw [installed_enter_of_ne m' hother, hm', installed_enter_of_ne m hother]
          constructor
          · intro hall installed'' hinstalled''
            obtain rfl := Option.some.inj hinstalled''
            have hsame := hall e rfl
            exact ⟨hworks, hok, metadata, hget, haccepted, hcreate, hstop,
              Or.inr ⟨hmemory.mp hsame.memory, hsame.saved, hsame.dirs⟩⟩
          · intro hwhen e' _
            obtain ⟨-, -, metadata', hget', -, -, -, hlast⟩ := hwhen installed rfl
            obtain rfl := Option.some.inj (hget.symm.trans hget')
            obtain ⟨hversion, hsaved, hdirs⟩ := hlast.resolve_left hfails
            exact ⟨hmemory.mpr hversion, hsaved, hdirs⟩
    · have heq : m.updatePlugin h hexHash disk id removal save a =
          ((m.enter id none, disk'), .error e) := by
        simp only [Marketplace.updatePlugin, hid, huninstall]
      rw [heq]
      refine ⟨fun hall => absurd (hall e rfl).memory hgone, fun hwhen => ?_⟩
      obtain ⟨hworks, hok, -⟩ := hwhen installed rfl
      exact absurd ⟨hworks, hok⟩ hfail

/-- **When an operation that fails leaves everything as it was.** -/
theorem atomic_iff (h : Host) (hexHash : Bytes → String) (m : Marketplace) (disk : Disk) (op : Op) :
    Atomic h hexHash m disk op ↔ HoldsWhen h hexHash m disk op := by
  cases op with
  | install id a => exact atomic_install_iff a
  | uninstall id removal save => exact atomic_uninstall_iff removal save
  | setEnabled id enabled save => exact atomic_setEnabled_iff enabled save
  | updatePlugin id removal save a => exact atomic_updatePlugin_iff removal save a

/-! ## Operations that are not -/

def plainHost : Host := ⟨[], fun name => name⟩

def pluginA (version : String) : PluginMetadata := ⟨"a", version, "https://host/a", ""⟩

/-- One plugin in the index, and the versions of it that are installed. -/
def market (installed : Option InstalledPlugin) : Marketplace :=
  ⟨[pluginA "2"], fun id => if id = "a" then installed else none, utf8 "/m"⟩

def oldA : InstalledPlugin := ⟨pluginA "1", utf8 "/m/plugins/a", "", true⟩

def savesFine : SaveAnswers := ⟨.ok (), .ok (), .ok (), .ok (), .ok ()⟩

def savesNot : SaveAnswers := ⟨.ok (), .ok (), .ok (), .ok (), .error ("disk full", fun _ => none)⟩

/-- An installation with this download and this save, where all else works. -/
def answers (curl : Except String Bool) (save : SaveAnswers) : InstallAnswers :=
  ⟨.ok (), curl, fun _ => none, .ok [], .ok true, fun _ => none, .done, .ok (), .ok (), "", save⟩

/-- A plugin whose save failed is installed in memory; one whose directory could not be removed is not, any more; and
an update whose download failed has lost it. -/
theorem not_atomic :
    ¬ Atomic plainHost (fun _ => "") (market none) ⟨fun _ => none, fun _ => none⟩
        (.install "a" (answers (.ok true) savesNot)) ∧
      ¬ Atomic plainHost (fun _ => "") (market (some oldA)) ⟨(market (some oldA)).installed, fun _ => some ⟨none⟩⟩
        (.uninstall "a" (.failed "busy" fun _ => some ⟨none⟩) savesFine) ∧
      ¬ Atomic plainHost (fun _ => "") (market (some oldA)) ⟨(market (some oldA)).installed, fun _ => some ⟨none⟩⟩
        (.updatePlugin "a" .done savesFine (answers (.ok false) savesFine)) := by
  refine ⟨?_, ?_, ?_⟩
  · intro h
    have hkeeps := (atomic_install_iff _).mp h (pluginA "2") (checkInstall_eq_ok.mpr ⟨rfl, rfl, by decide⟩) rfl
    exact nomatch hkeeps.2
  · intro h
    have hkeeps := (atomic_uninstall_iff _ _).mp h oldA rfl
    exact nomatch hkeeps.1 rfl
  · intro h
    obtain ⟨-, -, metadata, hget, -, -, hstop, -⟩ := (atomic_updatePlugin_iff _ _ _).mp h oldA rfl
    obtain rfl : pluginA "2" = metadata := Option.some.inj hget
    exact nomatch hstop

end VelocityMcp.Plugins
