import Mathlib.Data.List.Forall2
import PropAccord.Proofs.Places
import PropAccord.Workspace.Writing

/-!
# The documents of a workspace

Which files take part in a synchronisation is settled by the names of files and folders, so writing
into files leaves the list of them alone. What changes is what they read as: the files that were
written read as the new texts, on whichever path they are opened.
-/

namespace PropAccord

set_option autoImplicit false

namespace Tree

mutual

/-- The tree without what its files hold. -/
def outline : Tree → Tree
  | .file _ => .file []
  | .folder entries => .folder (outlines entries)

def outlines : List (Text × Tree) → List (Text × Tree)
  | [] => []
  | (name, tree) :: rest => (name, outline tree) :: outlines rest

end

theorem entries_outline (tree : Tree) : tree.outline.entries = outlines tree.entries := by
  cases tree with
  | file bytes => simp [outline, outlines, entries]
  | folder entries => simp [outline, Tree.entries]

theorem lookup_outlines (name : Text) (entries : List (Text × Tree)) :
    (outlines entries).lookup name = (entries.lookup name).map outline := by
  induction entries with
  | nil => simp [outlines]
  | cons entry rest ih =>
    obtain ⟨first, tree⟩ := entry
    rw [outlines, lookup_entry, lookup_entry, ih]
    split <;> rfl

theorem find?_outline (place : List Text) (tree : Tree) :
    tree.outline.find? place = (tree.find? place).map outline := by
  induction place generalizing tree with
  | nil => rfl
  | cons name rest ih =>
    rw [find?, find?, child?, child?, entries_outline, lookup_outlines]
    cases tree.entries.lookup name with
    | none => rfl
    | some below => exact ih below

theorem outlines_setEntry {name : Text} {tree tree' : Tree} {entries : List (Text × Tree)}
    (h : entries.lookup name = some tree) (ht : tree'.outline = tree.outline) :
    outlines (setEntry name tree' entries) = outlines entries := by
  induction entries with
  | nil => cases h
  | cons entry rest ih =>
    obtain ⟨first, below⟩ := entry
    rw [lookup_entry] at h
    rw [setEntry]
    by_cases hfirst : first = name
    · rw [if_pos hfirst.symm] at h
      rw [if_pos hfirst, outlines, outlines, ht, Option.some.inj h, hfirst]
    · rw [if_neg (Ne.symm hfirst)] at h
      rw [if_neg hfirst, outlines, outlines, ih h]

theorem outline_put {tree : Tree} {place : List Text} {old : Bytes} (bytes : Bytes)
    (h : tree.view place = some (some old)) :
    (put (.file bytes) place tree).outline = tree.outline := by
  induction place generalizing tree with
  | nil =>
    cases tree with
    | file bytes' => rw [put, outline, outline]
    | folder entries => cases h
  | cons name rest ih =>
    rw [view_cons, Option.bind_eq_some_iff] at h
    obtain ⟨below, hchild, hbelow⟩ := h
    cases tree with
    | file bytes' => cases hchild
    | folder entries =>
      rw [put, hchild, Option.getD_some, outline, outline]
      exact congrArg folder (outlines_setEntry hchild (ih hbelow))

end Tree

namespace Discovery

variable (limits : Limits) (f : Filter)

theorem keptFiles_outlines (place : List Text) (entries : List (Text × Tree)) :
    keptFiles limits f place (Tree.outlines entries) = keptFiles limits f place entries := by
  induction entries with
  | nil => rw [Tree.outlines]
  | cons entry rest ih =>
    obtain ⟨name, tree⟩ := entry
    cases tree with
    | file bytes => simp only [Tree.outlines, Tree.outline, keptFiles, ih]
    | folder entries => simp only [Tree.outlines, Tree.outline, keptFiles, ih]

mutual

theorem walk_outline (place : List Text) (calls : Option Nat) (tree : Tree) :
    walk limits f place calls tree.outline = walk limits f place calls tree := by
  cases tree with
  | file bytes => rw [Tree.outline, walk, walk]
  | folder entries =>
    rw [Tree.outline, walk, walk, keptFiles_outlines, enteredFolders_outlines place _ entries]

theorem enteredFolders_outlines (place : List Text) (calls : Option Nat)
    (entries : List (Text × Tree)) :
    enteredFolders limits f place calls (Tree.outlines entries) =
      enteredFolders limits f place calls entries := by
  match entries with
  | [] => rw [Tree.outlines]
  | (name, .file bytes) :: rest =>
    simp only [Tree.outlines, Tree.outline, enteredFolders, enteredFolders_outlines place calls rest]
  | (name, .folder below) :: rest =>
    have hbelow := walk_outline (place ++ [name]) calls (.folder below)
    rw [Tree.outline] at hbelow
    simp only [Tree.outlines, Tree.outline, enteredFolders, enteredFolders_outlines place calls rest,
      hbelow]

end

end Discovery

namespace Disk

theorem outline_writeMany {d : Disk} {writes : List (Path × Bytes)}
    (h : ∀ w ∈ writes, d.IsFile w.1) : (d.writeMany writes).tree.outline = d.tree.outline := by
  induction writes generalizing d with
  | nil => rfl
  | cons w rest ih =>
    have hfirst := h w List.mem_cons_self
    obtain ⟨old, hold⟩ := id hfirst
    have hrest : ∀ w' ∈ rest, (d.write w.1 w.2).IsFile w'.1 := fun w' hw' =>
      (alike_write hfirst w.2).isFile (h w' (List.mem_cons_of_mem w hw'))
    exact (ih hrest).trans (Tree.outline_put w.2 (readBytes_eq_ok_iff.1 hold).2)

/-- Which files are found does not depend on what they hold. -/
theorem Alike.findFiles {d e : Disk} (h : d.Alike e) (ho : e.tree.outline = d.tree.outline)
    (root : Path) (f : Discovery.Filter) : e.findFiles root f = d.findFiles root f := by
  rw [Disk.findFiles, Disk.findFiles, h.locate]
  cases d.locate root with
  | error fault => cases fault <;> rfl
  | ok place =>
    have hfound : (e.tree.find? place).map Tree.outline = (d.tree.find? place).map Tree.outline := by
      rw [← Tree.find?_outline, ← Tree.find?_outline, ho]
    cases hd : d.tree.find? place with
    | none =>
      rw [hd, Option.map_none, Option.map_eq_none_iff] at hfound
      simp only [hfound, hd]
    | some tree =>
      rw [hd, Option.map_some, Option.map_eq_some_iff] at hfound
      obtain ⟨tree', he, houtline⟩ := hfound
      have hwalk : Discovery.discover d.limits f tree' = Discovery.discover d.limits f tree := by
        rw [Discovery.discover, ← Discovery.walk_outline, houtline, Discovery.walk_outline]
        rfl
      simp only [he, hd, h.limits, hwalk]

theorem not_mem_of_readText {d : Disk} {p : Path} {text : Text} (h : d.readText p = .ok text) :
    '\r' ∉ text := by
  obtain ⟨bytes, -, htext⟩ := readText_eq_ok_iff.1 h
  rw [textOf] at htext
  cases hd : Utf8.decode bytes with
  | error fault =>
    rw [hd] at htext
    cases htext
  | ok file =>
    rw [hd] at htext
    exact Except.ok.inj htext ▸ Text.not_mem_unifyNewlines file

section

variable {d : Disk} {writes : List (Path × Bytes)} {R : Text → Text → Prop}
  (hwrites : ∀ w ∈ writes, ∃ old new : Text, d.readText w.1 = .ok old ∧ textOf w.2 = .ok new ∧
    R old new)
include hwrites

theorem isFile_of_mem_writes : ∀ w ∈ writes, d.IsFile w.1 := by
  intro w hw
  obtain ⟨old, new, hold, -⟩ := hwrites w hw
  obtain ⟨bytes, hbytes, -⟩ := readText_eq_ok_iff.1 hold
  exact ⟨bytes, hbytes⟩

/-- A file that is written reads as a new text for the one it read as, on every path to it. -/
theorem readText_writeMany_of_ok {p : Path} {text : Text} (hp : d.readText p = .ok text) :
    (∃ new, (d.writeMany writes).readText p = .ok new ∧ R text new) ∨
      (∀ w ∈ writes, w.1.resolve d.cwd ≠ p.resolve d.cwd) ∧
        (d.writeMany writes).readText p = .ok text := by
  have hfiles := isFile_of_mem_writes hwrites
  by_cases hplace : ∃ w ∈ writes, w.1.resolve d.cwd = p.resolve d.cwd
  · left
    obtain ⟨bytes, hbytes, htext⟩ := readText_eq_ok_iff.1 hp
    obtain ⟨w, hw, hto, hread⟩ := readBytes_writeMany_of_mem hfiles hplace ⟨bytes, hbytes⟩
    obtain ⟨old, new, hold, hnew, hR⟩ := hwrites w hw
    -- The write was made for a path to the same place, so it saw the same text.
    obtain ⟨bytes', hbytes', hold'⟩ := readText_eq_ok_iff.1 hold
    have hsame := (readBytes_eq_ok_iff.1 hbytes').2
    rw [hto, (readBytes_eq_ok_iff.1 hbytes).2] at hsame
    obtain rfl : bytes = bytes' := Option.some.inj (Option.some.inj hsame)
    obtain rfl : text = old := Except.ok.inj (htext.symm.trans hold')
    exact ⟨new, readText_eq_ok_iff.2 ⟨w.2, hread, hnew⟩, hR⟩
  · right
    have hne : ∀ w ∈ writes, w.1.resolve d.cwd ≠ p.resolve d.cwd :=
      fun w hw heq => hplace ⟨w, hw, heq⟩
    refine ⟨hne, ?_⟩
    rw [readText, readBytes_writeMany_of_forall_ne hfiles hne]
    exact hp

theorem readText_writeMany_of_error {p : Path} {fault : ReadFault}
    (hp : d.readText p = .error fault) :
    (d.writeMany writes).readText p = .error fault := by
  have hfiles := isFile_of_mem_writes hwrites
  have halike := alike_writeMany hfiles
  rw [← hp]
  cases hl : d.locate p with
  | error fault' =>
    rw [readText, readText, readBytes, readBytes, halike.locate, hl]
    rfl
  | ok place =>
    have hne : ∀ w ∈ writes, w.1.resolve d.cwd ≠ p.resolve d.cwd := by
      intro w hw hto
      obtain ⟨old, new, hold, -⟩ := hwrites w hw
      obtain ⟨bytes, hbytes, htext⟩ := readText_eq_ok_iff.1 hold
      obtain rfl := locate_eq hl
      have hview := (readBytes_eq_ok_iff.1 hbytes).2
      rw [hto] at hview
      have hread := readText_eq_ok_iff.2 ⟨bytes, readBytes_eq_ok_iff.2 ⟨hl, hview⟩, htext⟩
      rw [hp] at hread
      cases hread
    rw [readText, readText, readBytes_writeMany_of_forall_ne hfiles hne]

end

theorem readText_of_locate {d : Disk} {p : Path} {place : List Text} (h : d.locate p = .ok place) :
    d.readText p = match (d.view place).map (Option.map textOf) with
      | some (some (.ok text)) => .ok text
      | some (some (.error fault)) => .error (.undecodable fault)
      | some none => .error (.isFolder p)
      | none => .error (.missing p) := by
  rw [readText, readBytes_of_locate h]
  rcases d.view place with _ | _ | bytes
  · rfl
  · rfl
  · simp only [Option.map_some, bind, Except.bind]
    cases textOf bytes <;> rfl

/-- The same is read on both disks, in the same files. These may end their lines differently. -/
structure SameTexts (d e : Disk) : Prop where
  cwd : e.cwd = d.cwd
  limits : e.limits = d.limits
  outline : e.tree.outline = d.tree.outline
  texts : ∀ place, (e.view place).map (Option.map textOf) = (d.view place).map (Option.map textOf)

namespace SameTexts

theorem refl (d : Disk) : d.SameTexts d := ⟨rfl, rfl, rfl, fun _ => rfl⟩

variable {d e : Disk} (h : d.SameTexts e)
include h

theorem alike : d.Alike e := by
  refine ⟨h.cwd, h.limits, fun place => ?_⟩
  have hkind := congrArg (Option.map Option.isSome) (h.texts place)
  simpa only [Option.map_map, Function.comp_def, Option.isSome_map] using hkind

theorem readText (p : Path) : e.readText p = d.readText p := by
  cases hl : d.locate p with
  | error fault =>
    rw [Disk.readText, Disk.readText, Disk.readBytes, Disk.readBytes, h.alike.locate, hl]
    rfl
  | ok place => rw [readText_of_locate hl, readText_of_locate ((h.alike.locate p).trans hl), h.texts]

theorem write {p : Path} (hp : d.IsFile p) (bytes : Bytes) :
    (d.write p bytes).SameTexts (e.write p bytes) := by
  have hp' := h.alike.isFile hp
  obtain ⟨old, hold⟩ := id hp
  obtain ⟨old', hold'⟩ := id hp'
  refine ⟨h.cwd, h.limits, ?_, fun place => ?_⟩
  · exact (Tree.outline_put bytes (readBytes_eq_ok_iff.1 hold').2).trans
      (h.outline.trans (Tree.outline_put bytes (readBytes_eq_ok_iff.1 hold).2).symm)
  · rw [view_write hp, view_write hp', h.cwd]
    split
    · rfl
    · exact h.texts place

theorem writeMany {writes : List (Path × Bytes)} (hfiles : ∀ w ∈ writes, d.IsFile w.1) :
    (d.writeMany writes).SameTexts (e.writeMany writes) := by
  induction writes generalizing d e with
  | nil => exact h
  | cons w rest ih =>
    have hfirst := hfiles w List.mem_cons_self
    exact ih (h.write hfirst w.2) fun w' hw' =>
      (alike_write hfirst w.2).isFile (hfiles w' (List.mem_cons_of_mem w hw'))

end SameTexts

/-- On the second disk some of the files at the places hold other texts than on the first one, which are
among those written and read longer. Nothing else is different. -/
structure Lengthened (written : Text → Prop) (places : List (List Text)) (d e : Disk) : Prop where
  cwd : e.cwd = d.cwd
  limits : e.limits = d.limits
  outline : e.tree.outline = d.tree.outline
  view : ∀ place, e.view place = d.view place ∨ place ∈ places ∧ ∃ bytes old file,
    d.view place = some (some bytes) ∧ textOf bytes = .ok old ∧
      e.view place = some (some (Utf8.encode file)) ∧ written file ∧
      old.length < file.unifyNewlines.length

section

variable {written : Text → Prop} {places : List (List Text)}

theorem Lengthened.refl (d : Disk) : d.Lengthened written places d :=
  ⟨rfl, rfl, rfl, fun _ => Or.inl rfl⟩

theorem Lengthened.trans {d e f : Disk} (h : d.Lengthened written places e)
    (h' : e.Lengthened written places f) : d.Lengthened written places f := by
  refine ⟨h'.cwd.trans h.cwd, h'.limits.trans h.limits, h'.outline.trans h.outline, fun place => ?_⟩
  rcases h'.view place with
    hlast | ⟨hplace, bytes', old', file', hbytes', hold', hfile', hwritten', hlength'⟩
  · rw [hlast]
    exact h.view place
  · right
    rcases h.view place with hfirst | ⟨-, bytes, old, file, hbytes, hold, hfile, -, hlength⟩
    · exact ⟨hplace, bytes', old', file', hfirst ▸ hbytes', hold', hfile', hwritten', hlength'⟩
    · rw [hfile, Option.some.injEq, Option.some.injEq] at hbytes'
      have hread := textOf_encode_eq file
      rw [hbytes', hold', Except.ok.injEq] at hread
      exact ⟨hplace, bytes, old, file', hbytes, hold, hfile', hwritten',
        Nat.lt_trans hlength (hread ▸ hlength')⟩

theorem lengthened_writeMany {d : Disk} {writes : List (Path × Bytes)}
    (hplaces : ∀ w ∈ writes, w.1.resolve d.cwd ∈ places)
    (hwrites : ∀ w ∈ writes, ∃ old file : Text, d.readText w.1 = .ok old ∧ w.2 = Utf8.encode file ∧
      written file ∧ old.length < file.unifyNewlines.length) :
    d.Lengthened written places (d.writeMany writes) := by
  have hfiles : ∀ w ∈ writes, d.IsFile w.1 := fun w hw => by
    obtain ⟨old, -, hold, -⟩ := hwrites w hw
    obtain ⟨bytes, hbytes, -⟩ := readText_eq_ok_iff.1 hold
    exact ⟨bytes, hbytes⟩
  have halike := alike_writeMany hfiles
  refine ⟨halike.cwd, halike.limits, outline_writeMany hfiles, fun place => ?_⟩
  rcases view_writeMany hfiles place with ⟨w, hw, rfl, hview⟩ | ⟨-, hview⟩
  · right
    obtain ⟨old, file, hold, hfile, hwritten, hlength⟩ := hwrites w hw
    obtain ⟨bytes, hbytes, htext⟩ := readText_eq_ok_iff.1 hold
    exact ⟨hplaces w hw, bytes, old, file, (readBytes_eq_ok_iff.1 hbytes).2, htext, hfile ▸ hview,
      hwritten, hlength⟩
  · exact Or.inl hview

end

end Disk

/-- The document at a path, if the path leads to one that can be read. -/
def document? (d : Disk) (p : Path) : Option Snapshot :=
  (d.readText p).toOption.map fun text => { path := p, text }

theorem document?_eq_some_iff {d : Disk} {p : Path} {s : Snapshot} :
    document? d p = some s ↔ ∃ text, d.readText p = .ok text ∧ s = { path := p, text } := by
  rw [document?]
  cases d.readText p <;> simp [Except.toOption, eq_comm]

namespace Workspace

variable {root : Path} {cwd : List Text} {consent : Consent}

theorem openDocument_eq (w : Workspace) {p : Path} (h : p.hasNull = false) :
    (host root cwd consent).openDocument p w = .ok (document? w.disk p) := by
  have hopen : (host root cwd consent).openDocument p w =
      passOver (do return { path := p, text := ← w.disk.readText p }) := rfl
  have hnull : w.disk.readText p ≠ .error .nullByte := by
    rw [Ne, Disk.readText_eq_nullByte_iff, h]
    exact nofun
  rw [hopen, document?]
  cases hread : w.disk.readText p with
  | ok text => rfl
  | error fault =>
    rw [hread] at hnull
    cases fault with
    | nullByte => exact absurd rfl hnull
    | _ => rfl

theorem openDocument_of_hasNull (w : Workspace) {p : Path} (h : p.hasNull = true) :
    (host root cwd consent).openDocument p w = .error (.unreadable .nullByte) := by
  have hopen : (host root cwd consent).openDocument p w =
      passOver (do return { path := p, text := ← w.disk.readText p }) := rfl
  rw [hopen, Disk.readText_eq_nullByte_iff.2 h]
  rfl

/-- The documents that are opened are those that can be read, provided that no path has a null
character. -/
theorem openReadable_eq_ok_iff {w : Workspace} {paths : List Path} {snapshots : List Snapshot} :
    (host root cwd consent).openReadable w paths = .ok snapshots ↔
      (∀ p ∈ paths, p.hasNull = false) ∧ snapshots = paths.filterMap (document? w.disk) := by
  induction paths generalizing snapshots with
  | nil =>
    rw [Host.openReadable, Except.ok.injEq, List.filterMap_nil, and_iff_right (by simp), eq_comm]
  | cons p paths ih =>
    rw [Host.openReadable, List.forall_mem_cons]
    cases hnull : p.hasNull with
    | true =>
      rw [openDocument_of_hasNull w hnull]
      exact iff_of_false nofun fun h => by cases h.1.1
    | false =>
      have hcons : (p :: paths).filterMap (document? w.disk) =
          (document? w.disk p).toList ++ paths.filterMap (document? w.disk) := by
        rw [List.filterMap_cons]
        cases document? w.disk p <;> rfl
      rw [openDocument_eq w hnull, hcons, and_iff_right rfl]
      cases hrest : (host root cwd consent).openReadable w paths with
      | error halt =>
        refine iff_of_false nofun fun h => ?_
        rw [ih.2 ⟨h.1, rfl⟩] at hrest
        cases hrest
      | ok others =>
        obtain ⟨hnone, rfl⟩ := ih.1 hrest
        rw [and_iff_right hnone]
        exact ⟨fun h => (Except.ok.inj h).symm, fun h => congrArg Except.ok h.symm⟩

/-- Each document has become one at the same path whose text is related to the old one. -/
def Changed (R : Text → Text → Prop) : List Snapshot → List Snapshot → Prop :=
  List.Forall₂ fun s s' => s'.path = s.path ∧ R s.text s'.text

theorem Changed.map_path {R : Text → Text → Prop} {l l' : List Snapshot} (h : Changed R l l') :
    l'.map Snapshot.path = l.map Snapshot.path := by
  induction h with
  | nil => rfl
  | cons hs _ ih => rw [List.map_cons, List.map_cons, hs.1, ih]

theorem changed_documents {d e : Disk} {R : Text → Text → Prop} {paths : List Path}
    (hok : ∀ p ∈ paths, ∀ text, d.readText p = .ok text →
      ∃ text', e.readText p = .ok text' ∧ R text text')
    (herror : ∀ p ∈ paths, ∀ fault, d.readText p = .error fault → e.readText p = .error fault) :
    Changed R (paths.filterMap (document? d)) (paths.filterMap (document? e)) := by
  induction paths with
  | nil => exact .nil
  | cons p paths ih =>
    have hrest := ih (fun q hq => hok q (List.mem_cons_of_mem p hq))
      (fun q hq => herror q (List.mem_cons_of_mem p hq))
    cases hread : d.readText p with
    | error fault =>
      have hread' := herror p List.mem_cons_self fault hread
      rw [List.filterMap_cons_none (by rw [document?, hread]; rfl),
        List.filterMap_cons_none (by rw [document?, hread']; rfl)]
      exact hrest
    | ok text =>
      obtain ⟨text', hread', hR⟩ := hok p List.mem_cons_self text hread
      rw [List.filterMap_cons_some (document?_eq_some_iff.2 ⟨text, hread, rfl⟩),
        List.filterMap_cons_some (document?_eq_some_iff.2 ⟨text', hread', rfl⟩)]
      exact .cons ⟨rfl, hR⟩ hrest

theorem candidates_congr {w w' : Workspace} (h : w.disk.Alike w'.disk)
    (ho : w'.disk.tree.outline = w.disk.tree.outline) (filter : Discovery.Filter) :
    (host root cwd consent).candidates filter w' = (host root cwd consent).candidates filter w := by
  have hfind : (host root cwd consent).findFiles filter w' =
      (host root cwd consent).findFiles filter w :=
    congrArg (Except.mapError Halt.unlisted) (h.findFiles ho root filter)
  rw [Host.candidates, Host.candidates, hfind]

section

variable {settings : Settings}

theorem snapshots_eq_ok_iff {w : Workspace} {snapshots : List Snapshot} :
    Sync.Engine.snapshots { host := host root cwd consent, settings } w = .ok snapshots ↔
      ∃ paths, (host root cwd consent).candidates ⟨settings.includes, settings.excludes⟩ w =
          .ok paths ∧ (∀ p ∈ paths, p.hasNull = false) ∧
        snapshots = paths.filterMap (document? w.disk) := by
  have hsnapshots : Sync.Engine.snapshots { host := host root cwd consent, settings } w =
      (host root cwd consent).candidates ⟨settings.includes, settings.excludes⟩ w >>=
        (host root cwd consent).openReadable w := rfl
  rw [hsnapshots]
  cases (host root cwd consent).candidates ⟨settings.includes, settings.excludes⟩ w with
  | error halt => exact iff_of_false nofun fun ⟨_, h, _⟩ => nomatch h
  | ok paths =>
    change (host root cwd consent).openReadable w paths = .ok snapshots ↔ _
    rw [openReadable_eq_ok_iff]
    simp

/-- What is opened is on the disk. -/
theorem readText_of_mem_snapshots {w : Workspace} {snapshots : List Snapshot}
    (h : Sync.Engine.snapshots { host := host root cwd consent, settings } w = .ok snapshots) :
    ∀ s ∈ snapshots, w.disk.readText s.path = .ok s.text := by
  obtain ⟨paths, -, -, rfl⟩ := snapshots_eq_ok_iff.1 h
  intro s hs
  obtain ⟨p, -, hp⟩ := List.mem_filterMap.1 hs
  obtain ⟨text, htext, rfl⟩ := document?_eq_some_iff.1 hp
  exact htext

/-- Writing new texts changes the documents that are written, in the way of the writes, and opens and
closes none. -/
theorem exists_snapshots_of_writes {w w' : Workspace} {writes : List (Path × Bytes)}
    {R : Text → Text → Prop} (hdisk : w'.disk = w.disk.writeMany writes)
    (hwrites : ∀ write ∈ writes, ∃ old new : Text, w.disk.readText write.1 = .ok old ∧
      Disk.textOf write.2 = .ok new ∧ R old new) {snapshots : List Snapshot}
    (h : Sync.Engine.snapshots { host := host root cwd consent, settings } w = .ok snapshots)
    (hkept : ∀ s ∈ snapshots,
      (∀ write ∈ writes, write.1.resolve w.disk.cwd ≠ s.path.resolve w.disk.cwd) → R s.text s.text) :
    ∃ snapshots', Sync.Engine.snapshots { host := host root cwd consent, settings } w' =
      .ok snapshots' ∧ Changed R snapshots snapshots' := by
  obtain ⟨paths, hpaths, hnull, rfl⟩ := snapshots_eq_ok_iff.1 h
  have hfiles := Disk.isFile_of_mem_writes hwrites
  have halike : w.disk.Alike w'.disk := hdisk ▸ Disk.alike_writeMany hfiles
  have houtline : w'.disk.tree.outline = w.disk.tree.outline :=
    hdisk ▸ Disk.outline_writeMany hfiles
  refine ⟨_, snapshots_eq_ok_iff.2
    ⟨paths, (candidates_congr halike houtline _).trans hpaths, hnull, rfl⟩, ?_⟩
  rw [hdisk]
  apply changed_documents
  · intro p hp text htext
    rcases Disk.readText_writeMany_of_ok hwrites htext with ⟨new, hnew, hR⟩ | ⟨hne, hsame⟩
    · exact ⟨new, hnew, hR⟩
    · refine ⟨text, hsame, hkept { path := p, text } ?_ hne⟩
      exact List.mem_filterMap.2 ⟨p, hp, document?_eq_some_iff.2 ⟨text, htext, rfl⟩⟩
  · intro p _ fault hfault
    exact Disk.readText_writeMany_of_error hwrites hfault

end

end Workspace

end PropAccord
