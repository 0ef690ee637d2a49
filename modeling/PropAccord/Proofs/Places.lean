import PropAccord.Disk.Basic
import PropAccord.Proofs.Utf8

/-!
# What stands at a place

A disk is seen through what stands at each of its places: nothing, a folder, or a file with its
bytes. Writing a file that can be read changes the view at one place, and since only bytes change,
every path leads where it led before. Lists of writes follow by induction.
-/

namespace PropAccord

set_option autoImplicit false

namespace Text

/-- A character that does not begin a pair stands for one character of the text. -/
theorem unifyNewlines_cons {c : Char} {t : Text} (h : ∀ rest, c = '\r' → t = '\n' :: rest → False) :
    unifyNewlines (c :: t) = (if c = '\r' then '\n' else c) :: unifyNewlines t := by
  by_cases hc : c = '\r'
  · subst hc
    rw [if_pos rfl, unifyNewlines]
    exact fun rest => h rest rfl
  · rw [if_neg hc, unifyNewlines]
    · exact fun rest heq => absurd heq hc
    · exact hc

theorem not_mem_unifyNewlines (t : Text) : '\r' ∉ unifyNewlines t := by
  fun_induction unifyNewlines t with
  | case1 => exact List.not_mem_nil
  | case2 rest ih => exact List.not_mem_cons_of_ne_of_not_mem (by decide) ih
  | case3 rest hnext ih => exact List.not_mem_cons_of_ne_of_not_mem (by decide) ih
  | case4 c rest hpair hreturn ih =>
    exact List.not_mem_cons_of_ne_of_not_mem (fun heq => hreturn heq.symm) ih

theorem unifyNewlines_of_not_mem {t : Text} (h : '\r' ∉ t) : unifyNewlines t = t := by
  fun_induction unifyNewlines t with
  | case1 => rfl
  | case2 rest ih => exact absurd List.mem_cons_self h
  | case3 rest hnext ih => exact absurd List.mem_cons_self h
  | case4 c rest hpair hreturn ih => rw [ih fun hmem => h (List.mem_cons_of_mem c hmem)]

end Text

namespace Tree

/-- The bytes of a file; a folder has none. -/
def bytes? : Tree → Option Bytes
  | .file bytes => some bytes
  | .folder _ => none

/-- What stands at a place: nothing, a folder, or a file with its bytes. -/
def view (tree : Tree) (place : List Text) : Option (Option Bytes) :=
  (tree.find? place).map bytes?

theorem view_cons (tree : Tree) (name : Text) (rest : List Text) :
    tree.view (name :: rest) = (tree.child? name).bind fun below => below.view rest := by
  rw [view, find?, Option.map_bind]
  rfl

theorem find?_append (tree : Tree) (place rest : List Text) :
    tree.find? (place ++ rest) = (tree.find? place).bind (find? rest) := by
  induction place generalizing tree with
  | nil => rfl
  | cons name place ih =>
    rw [List.cons_append, find?, find?, Option.bind_assoc]
    congr 1
    funext below
    exact ih below

theorem lookup_entry (name other : Text) (tree : Tree) (rest : List (Text × Tree)) :
    ((name, tree) :: rest).lookup other = if other = name then some tree else rest.lookup other := by
  rw [List.lookup_cons]
  by_cases h : other = name
  · rw [if_pos h, beq_iff_eq.2 h]
  · rw [if_neg h, beq_eq_false_iff_ne.2 h]

theorem lookup_setEntry (name other : Text) (tree : Tree) (entries : List (Text × Tree)) :
    (setEntry name tree entries).lookup other =
      if other = name then some tree else entries.lookup other := by
  induction entries with
  | nil => exact lookup_entry name other tree []
  | cons entry rest ih =>
    obtain ⟨first, below⟩ := entry
    rw [setEntry]
    by_cases hfirst : first = name
    · subst hfirst
      rw [if_pos rfl, lookup_entry, lookup_entry]
      split <;> rfl
    · rw [if_neg hfirst, lookup_entry, lookup_entry, ih]
      by_cases h : other = first
      · rw [if_pos h, if_pos h, if_neg (h ▸ hfirst)]
      · rw [if_neg h, if_neg h]

theorem view_put {tree : Tree} {place : List Text} {old : Bytes} (bytes : Bytes)
    (h : tree.view place = some (some old)) (other : List Text) :
    (put (.file bytes) place tree).view other =
      if other = place then some (some bytes) else tree.view other := by
  induction place generalizing tree other with
  | nil =>
    cases tree with
    | folder entries => cases h
    | file bytes' => cases other <;> rfl
  | cons name rest ih =>
    rw [view_cons, Option.bind_eq_some_iff] at h
    obtain ⟨below, hchild, hbelow⟩ := h
    rw [put, hchild, Option.getD_some]
    cases other with
    | nil =>
      cases tree with
      | file bytes' => cases hchild
      | folder entries => rfl
    | cons first others =>
      rw [view_cons, view_cons, child?, entries, lookup_setEntry]
      by_cases hfirst : first = name
      · subst hfirst
        rw [if_pos rfl, hchild, Option.bind_some, Option.bind_some, ih hbelow]
        simp only [List.cons.injEq, true_and]
      · rw [if_neg hfirst, if_neg (fun heq => hfirst (List.cons.inj heq).1)]
        rfl

end Tree

namespace Disk

/-- What stands at a place of a disk. -/
def view (d : Disk) (place : List Text) : Option (Option Bytes) := d.tree.view place

/-- The two disks have the same folders and files, up to the bytes of the files. -/
structure Alike (d e : Disk) : Prop where
  cwd : e.cwd = d.cwd
  limits : e.limits = d.limits
  kind : ∀ place, (e.view place).map Option.isSome = (d.view place).map Option.isSome

theorem Alike.refl (d : Disk) : d.Alike d := ⟨rfl, rfl, fun _ => rfl⟩

theorem Alike.trans {d e f : Disk} (h : d.Alike e) (h' : e.Alike f) : d.Alike f :=
  ⟨h'.cwd.trans h.cwd, h'.limits.trans h.limits, fun place => (h'.kind place).trans (h.kind place)⟩

theorem follow_congr (path : Path) {s t : Tree}
    (h : ∀ place, (t.view place).map Option.isSome = (s.view place).map Option.isSome)
    (place names : List Text) : follow path t place names = follow path s place names := by
  induction names generalizing place with
  | nil => rfl
  | cons name rest ih =>
    have hhere := h place.reverse
    -- Whether a folder has an entry is seen one place further on.
    have hnext := h (place.reverse ++ [name])
    simp only [Tree.view, Tree.find?_append] at hhere hnext
    rw [follow, follow]
    cases ht : t.find? place.reverse with
    | none =>
      cases hs : s.find? place.reverse with
      | none => rfl
      | some below => rw [ht, hs] at hhere; cases hhere
    | some below =>
      cases hs : s.find? place.reverse with
      | none => rw [ht, hs] at hhere; cases hhere
      | some below' =>
        rw [ht, hs] at hhere hnext
        cases below <;> cases below'
        · rfl
        · cases hhere
        · cases hhere
        · rename_i entries entries'
          have hsome : (entries.lookup name).isSome = (entries'.lookup name).isSome := by
            have hisSome := congrArg Option.isSome hnext
            simpa [Tree.find?, Tree.child?, Tree.entries] using hisSome
          simp only [hsome, ih]

theorem Alike.locate {d e : Disk} (h : d.Alike e) (p : Path) : e.locate p = d.locate p := by
  rw [Disk.locate, Disk.locate, h.cwd, follow_congr p h.kind]

theorem follow_ne_nullByte (path : Path) (tree : Tree) (place names : List Text) :
    follow path tree place names ≠ .error .nullByte := by
  induction names generalizing place with
  | nil => exact nofun
  | cons name rest ih =>
    rw [follow]
    split
    · exact nofun
    · exact nofun
    · split
      · exact ih _
      · split
        · exact nofun
        · split
          · exact ih _
          · exact nofun

theorem follow_eq {path : Path} {tree : Tree} {place names found : List Text}
    (h : follow path tree place names = .ok found) : found = Path.follow place names := by
  induction names generalizing place with
  | nil => exact (Except.ok.inj h).symm
  | cons name rest ih =>
    rw [follow] at h
    rw [Path.follow]
    split at h
    · cases h
    · cases h
    · split at h
      · rename_i hup
        rw [if_pos hup]
        exact ih h
      · rename_i hup
        rw [if_neg hup]
        split at h
        · cases h
        · split at h
          · exact ih h
          · cases h

theorem locate_eq {d : Disk} {p : Path} {place : List Text} (h : d.locate p = .ok place) :
    place = p.resolve d.cwd := by
  rw [locate] at h
  split at h
  · cases h
  · split at h
    · cases h
    · cases hf : follow p d.tree (if p.isAbsolute then [] else d.cwd.reverse) p.segments with
      | error fault => rw [hf] at h; cases h
      | ok found =>
        rw [hf] at h
        rw [Path.resolve, ← follow_eq hf]
        exact (Except.ok.inj h).symm

theorem readBytes_of_locate {d : Disk} {p : Path} {place : List Text} (h : d.locate p = .ok place) :
    d.readBytes p = match d.view place with
      | some (some bytes) => .ok bytes
      | some none => .error (.isFolder p)
      | none => .error (.missing p) := by
  simp only [readBytes, h, view, Tree.view, bind, Except.bind]
  rcases d.tree.find? place with _ | (bytes | entries) <;> rfl

theorem readBytes_eq_nullByte_iff {d : Disk} {p : Path} :
    d.readBytes p = .error .nullByte ↔ p.hasNull = true := by
  by_cases hnull : p.hasNull = true
  · rw [readBytes, locate, if_pos hnull]
    exact iff_of_true rfl hnull
  · refine iff_of_false ?_ hnull
    intro h
    cases hl : d.locate p with
    | ok place =>
      rw [readBytes_of_locate hl] at h
      split at h <;> cases h
    | error fault =>
      rw [readBytes, hl] at h
      rw [locate, if_neg hnull] at hl
      split at hl
      · cases hl
        cases h
      · cases hf : follow p d.tree (if p.isAbsolute then [] else d.cwd.reverse) p.segments with
        | ok found => rw [hf] at hl; cases hl
        | error fault' =>
          rw [hf] at hl
          cases hl
          cases h
          exact follow_ne_nullByte _ _ _ _ hf

theorem readBytes_eq_ok_iff {d : Disk} {p : Path} {bytes : Bytes} :
    d.readBytes p = .ok bytes ↔
      d.locate p = .ok (p.resolve d.cwd) ∧ d.view (p.resolve d.cwd) = some (some bytes) := by
  constructor
  · intro h
    cases hl : d.locate p with
    | error fault =>
      rw [readBytes, hl] at h
      cases h
    | ok place =>
      rw [readBytes_of_locate hl] at h
      rw [← locate_eq hl]
      refine ⟨rfl, ?_⟩
      split at h
      · rename_i found hfound
        rw [hfound, Except.ok.inj h]
      · cases h
      · cases h
  · rintro ⟨hl, hv⟩
    rw [readBytes_of_locate hl, hv]

/-- The path leads to a file. -/
def IsFile (d : Disk) (p : Path) : Prop := ∃ bytes, d.readBytes p = .ok bytes

theorem Alike.isFile {d e : Disk} (h : d.Alike e) {p : Path} (hp : d.IsFile p) : e.IsFile p := by
  obtain ⟨old, hold⟩ := hp
  obtain ⟨hl, hv⟩ := readBytes_eq_ok_iff.1 hold
  have hkind := h.kind (p.resolve d.cwd)
  rw [hv, Option.map_some, Option.map_eq_some_iff] at hkind
  obtain ⟨found, hfound, hsome⟩ := hkind
  obtain ⟨bytes, rfl⟩ := Option.isSome_iff_exists.1 hsome
  refine ⟨bytes, readBytes_eq_ok_iff.2 ?_⟩
  rw [h.locate, h.cwd]
  exact ⟨hl, hfound⟩

theorem Alike.readBytes {d e : Disk} (h : d.Alike e) {p : Path}
    (hv : e.view (p.resolve d.cwd) = d.view (p.resolve d.cwd)) : e.readBytes p = d.readBytes p := by
  cases hl : d.locate p with
  | error fault => rw [Disk.readBytes, Disk.readBytes, h.locate, hl]; rfl
  | ok place =>
    rw [readBytes_of_locate hl, readBytes_of_locate ((h.locate p).trans hl), locate_eq hl, hv]

theorem view_write {d : Disk} {p : Path} (h : d.IsFile p) (bytes : Bytes) (place : List Text) :
    (d.write p bytes).view place =
      if place = p.resolve d.cwd then some (some bytes) else d.view place := by
  obtain ⟨old, hold⟩ := h
  exact Tree.view_put bytes (readBytes_eq_ok_iff.1 hold).2 place

theorem alike_write {d : Disk} {p : Path} (h : d.IsFile p) (bytes : Bytes) :
    d.Alike (d.write p bytes) := by
  refine ⟨rfl, rfl, fun place => ?_⟩
  rw [view_write h]
  split
  · rename_i hplace
    obtain ⟨old, hold⟩ := h
    rw [hplace, (readBytes_eq_ok_iff.1 hold).2]
    rfl
  · rfl

/-! ## Lists of writes -/

/-- The disk after writing files in order. -/
def writeMany (d : Disk) (writes : List (Path × Bytes)) : Disk :=
  writes.foldl (fun d w => d.write w.1 w.2) d

theorem alike_writeMany {d : Disk} {writes : List (Path × Bytes)} (h : ∀ w ∈ writes, d.IsFile w.1) :
    d.Alike (d.writeMany writes) := by
  induction writes generalizing d with
  | nil => exact Alike.refl d
  | cons w rest ih =>
    have hfirst := alike_write (h w List.mem_cons_self) w.2
    exact hfirst.trans (ih fun w' hw' => hfirst.isFile (h w' (List.mem_cons_of_mem w hw')))

/-- A place has the bytes of some write that leads there, if there is one. -/
theorem view_writeMany {d : Disk} {writes : List (Path × Bytes)} (h : ∀ w ∈ writes, d.IsFile w.1)
    (place : List Text) :
    (∃ w ∈ writes, w.1.resolve d.cwd = place ∧ (d.writeMany writes).view place = some (some w.2)) ∨
      (∀ w ∈ writes, w.1.resolve d.cwd ≠ place) ∧
        (d.writeMany writes).view place = d.view place := by
  induction writes generalizing d with
  | nil => exact Or.inr ⟨fun _ hw => absurd hw List.not_mem_nil, rfl⟩
  | cons w rest ih =>
    have hfile := h w List.mem_cons_self
    have hrest : ∀ w' ∈ rest, (d.write w.1 w.2).IsFile w'.1 := fun w' hw' =>
      (alike_write hfile w.2).isFile (h w' (List.mem_cons_of_mem w hw'))
    rcases ih hrest with ⟨w', hw', hplace, hview⟩ | ⟨hnone, hview⟩
    · exact Or.inl ⟨w', List.mem_cons_of_mem w hw', hplace, hview⟩
    · -- No later write leads to the place, so the first one decides.
      rw [view_write hfile] at hview
      by_cases hplace : place = w.1.resolve d.cwd
      · rw [if_pos hplace] at hview
        exact Or.inl ⟨w, List.mem_cons_self, hplace.symm, hview⟩
      · rw [if_neg hplace] at hview
        refine Or.inr ⟨?_, hview⟩
        intro w' hw'
        rcases List.mem_cons.1 hw' with rfl | hw'
        · exact fun heq => hplace heq.symm
        · exact hnone w' hw'

theorem view_writeMany_of_forall_ne {d : Disk} {writes : List (Path × Bytes)}
    (h : ∀ w ∈ writes, d.IsFile w.1) {place : List Text}
    (hne : ∀ w ∈ writes, w.1.resolve d.cwd ≠ place) :
    (d.writeMany writes).view place = d.view place := by
  rcases view_writeMany h place with ⟨w, hw, hplace, -⟩ | ⟨-, hview⟩
  · exact absurd hplace (hne w hw)
  · exact hview

theorem readBytes_writeMany_of_forall_ne {d : Disk} {writes : List (Path × Bytes)}
    (h : ∀ w ∈ writes, d.IsFile w.1) {p : Path}
    (hne : ∀ w ∈ writes, w.1.resolve d.cwd ≠ p.resolve d.cwd) :
    (d.writeMany writes).readBytes p = d.readBytes p :=
  (alike_writeMany h).readBytes (view_writeMany_of_forall_ne h hne)

/-- A file that is written has the bytes of some write to its place. -/
theorem readBytes_writeMany_of_mem {d : Disk} {writes : List (Path × Bytes)}
    (h : ∀ w ∈ writes, d.IsFile w.1) {p : Path}
    (hp : ∃ w ∈ writes, w.1.resolve d.cwd = p.resolve d.cwd) (hfile : d.IsFile p) :
    ∃ w ∈ writes, w.1.resolve d.cwd = p.resolve d.cwd ∧
      (d.writeMany writes).readBytes p = .ok w.2 := by
  have halike := alike_writeMany h
  obtain ⟨bytes, hbytes⟩ := halike.isFile hfile
  obtain ⟨hl, hv⟩ := readBytes_eq_ok_iff.1 hbytes
  rw [halike.cwd] at hl hv
  rcases view_writeMany h (p.resolve d.cwd) with ⟨w, hw, hplace, hview⟩ | ⟨hnone, -⟩
  · refine ⟨w, hw, hplace, readBytes_eq_ok_iff.2 ?_⟩
    rw [halike.cwd]
    exact ⟨hl, hview⟩
  · obtain ⟨w, hw, hplace⟩ := hp
    exact absurd hplace (hnone w hw)

/-- The last write to a place decides. -/
theorem readBytes_writeMany_of_last {d : Disk} {before after : List (Path × Bytes)} {p : Path}
    {bytes : Bytes} (h : ∀ w ∈ before ++ (p, bytes) :: after, d.IsFile w.1)
    (hne : ∀ w ∈ after, w.1.resolve d.cwd ≠ p.resolve d.cwd) :
    (d.writeMany (before ++ (p, bytes) :: after)).readBytes p = .ok bytes := by
  have hbefore : d.Alike (d.writeMany before) :=
    alike_writeMany fun w hw => h w (List.mem_append_left _ hw)
  have hp : (d.writeMany before).IsFile p :=
    hbefore.isFile (h (p, bytes) (List.mem_append_right _ List.mem_cons_self))
  have hwritten := hbefore.trans (alike_write hp bytes)
  have hafter : ∀ w ∈ after, ((d.writeMany before).write p bytes).IsFile w.1 := fun w hw =>
    hwritten.isFile (h w (List.mem_append_right _ (List.mem_cons_of_mem _ hw)))
  have hsplit : d.writeMany (before ++ (p, bytes) :: after) =
      ((d.writeMany before).write p bytes).writeMany after := by
    rw [writeMany, List.foldl_append]
    rfl
  rw [hsplit, readBytes_writeMany_of_forall_ne hafter (by rw [hwritten.cwd]; exact hne),
    readBytes_eq_ok_iff]
  obtain ⟨old, hold⟩ := hp
  refine ⟨?_, ?_⟩
  · exact ((alike_write ⟨old, hold⟩ bytes).locate p).trans (readBytes_eq_ok_iff.1 hold).1
  · rw [view_write ⟨old, hold⟩]
    exact if_pos rfl

/-! ## Texts that were written are read again -/

theorem textOf_encode_eq (text : Text) : textOf (Utf8.encode text) = .ok text.unifyNewlines := by
  rw [textOf, Utf8.decode_encode]
  rfl

theorem textOf_encode {text : Text} (h : '\r' ∉ text) : textOf (Utf8.encode text) = .ok text := by
  rw [textOf_encode_eq, Text.unifyNewlines_of_not_mem h]

theorem textOf_encode_of_textOf {bytes : Bytes} {text : Text} (h : textOf bytes = .ok text) :
    textOf (Utf8.encode text) = .ok text := by
  rw [textOf] at h
  cases hd : Utf8.decode bytes with
  | error fault => rw [hd] at h; cases h
  | ok decoded =>
    rw [hd] at h
    -- What was read has no carriage returns left, so its line ends are unified already.
    exact textOf_encode (Except.ok.inj h ▸ Text.not_mem_unifyNewlines decoded)

theorem readText_eq_ok_iff {d : Disk} {p : Path} {text : Text} :
    d.readText p = .ok text ↔ ∃ bytes, d.readBytes p = .ok bytes ∧ textOf bytes = .ok text := by
  simp only [readText, bind, Except.bind]
  cases d.readBytes p with
  | error fault => simp
  | ok bytes => cases ht : textOf bytes <;> simp [pure, Except.pure, throw, throwThe,
      MonadExceptOf.throw, ht]

/-- Two disks read alike where they have the same text, if in other bytes. -/
theorem Alike.readText_of_textOf {d e : Disk} (h : d.Alike e) {p : Path} {bytes bytes' : Bytes}
    {text : Text} (hd : d.view (p.resolve d.cwd) = some (some bytes))
    (he : e.view (p.resolve d.cwd) = some (some bytes')) (ht : textOf bytes = .ok text)
    (ht' : textOf bytes' = .ok text) : e.readText p = d.readText p := by
  cases hl : d.locate p with
  | error fault =>
    rw [readText, readText, Disk.readBytes, Disk.readBytes, h.locate, hl]
    rfl
  | ok place =>
    obtain rfl := locate_eq hl
    have hread : d.readText p = .ok text :=
      readText_eq_ok_iff.2 ⟨bytes, readBytes_eq_ok_iff.2 ⟨hl, hd⟩, ht⟩
    have hread' : e.readText p = .ok text := by
      refine readText_eq_ok_iff.2 ⟨bytes', readBytes_eq_ok_iff.2 ?_, ht'⟩
      rw [h.locate, h.cwd]
      exact ⟨hl, he⟩
    rw [hread, hread']

theorem readText_eq_nullByte_iff {d : Disk} {p : Path} :
    d.readText p = .error .nullByte ↔ p.hasNull = true := by
  rw [← readBytes_eq_nullByte_iff (d := d)]
  simp only [readText, bind, Except.bind]
  cases d.readBytes p with
  | error fault => simp
  | ok bytes => cases ht : textOf bytes <;> simp [pure, Except.pure, throw, throwThe,
      MonadExceptOf.throw, ht]

end Disk

end PropAccord
