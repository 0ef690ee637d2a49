import Mathlib.Data.List.Nodup
import Mathlib.Data.Nat.Find
import PropAccord.Proofs.Edits
import PropAccord.Proofs.Places
import PropAccord.Workspace.Writing

/-!
# What carrying out a plan does

The first target that cannot be carried out decides, and nothing is written. Otherwise the targets
are written in order. A rename that fails stops that, and the targets written before are put back,
the last one first, by the renames that follow. Every write goes to a target, so all other places
stay as they are.
-/

namespace PropAccord.Workspace

set_option autoImplicit false

/-! ## Single writes -/

theorem replaceFile_of_mem {w : Workspace} (h : w.renames ∈ w.failing) (p : Path) (text : Text) :
    w.replaceFile p text = (false, { w with renames := w.renames + 1 }) := by
  rw [replaceFile, if_pos (List.contains_iff_mem.2 h)]
  rfl

theorem replaceFile_of_not_mem {w : Workspace} (h : w.renames ∉ w.failing) (p : Path) (text : Text) :
    w.replaceFile p text =
      (true, { w with renames := w.renames + 1, disk := w.disk.write p (Utf8.encode text) }) := by
  rw [replaceFile, if_neg (fun hc => h (List.contains_iff_mem.1 hc))]
  rfl

/-! ## Writing the targets -/

/-- The writes that give targets their new texts. -/
def writesOf (rendered : List (FilePlan × Text)) : List (Path × Bytes) :=
  rendered.map fun r => (r.1.path, Utf8.encode r.2)

theorem writeAll_of_forall_not_mem {w : Workspace} (written : List FilePlan)
    {rendered : List (FilePlan × Text)}
    (h : ∀ i < rendered.length, w.renames + i ∉ w.failing) :
    w.writeAll written rendered =
      (true, (rendered.map Prod.fst).reverse ++ written,
        { w with
          renames := w.renames + rendered.length
          disk := w.disk.writeMany (writesOf rendered) }) := by
  induction rendered generalizing w written with
  | nil => rfl
  | cons r rest ih =>
    obtain ⟨f, text⟩ := r
    have hfirst : w.renames ∉ w.failing := h 0 (Nat.zero_lt_succ _)
    rw [writeAll, replaceFile_of_not_mem hfirst]
    change writeAll _ (f :: written) rest = _
    rw [ih]
    · simp [writesOf, Disk.writeMany, Nat.add_assoc, Nat.add_comm 1]
    · intro i hi
      have hnext := h (i + 1) (Nat.succ_lt_succ hi)
      rwa [show w.renames + (i + 1) = w.renames + 1 + i by omega] at hnext

theorem writeAll_of_mem {w : Workspace} (written : List FilePlan) {rendered : List (FilePlan × Text)}
    {k : Nat} (hk : k < rendered.length) (h : ∀ i < k, w.renames + i ∉ w.failing)
    (hfail : w.renames + k ∈ w.failing) :
    w.writeAll written rendered =
      (false, ((rendered.take k).map Prod.fst).reverse ++ written,
        { w with
          renames := w.renames + k + 1
          disk := w.disk.writeMany (writesOf (rendered.take k)) }) := by
  induction rendered generalizing w written k with
  | nil => exact absurd hk (Nat.not_lt_zero k)
  | cons r rest ih =>
    obtain ⟨f, text⟩ := r
    rw [writeAll]
    cases k with
    | zero =>
      rw [replaceFile_of_mem hfail]
      rfl
    | succ k =>
      have hfirst : w.renames ∉ w.failing := h 0 (Nat.zero_lt_succ k)
      rw [replaceFile_of_not_mem hfirst]
      change writeAll _ (f :: written) rest = _
      rw [ih _ (Nat.lt_of_succ_lt_succ hk)]
      · simp [writesOf, Disk.writeMany, Nat.add_assoc, Nat.add_comm 1]
      · intro i hi
        have hnext := h (i + 1) (Nat.succ_lt_succ hi)
        rwa [show w.renames + (i + 1) = w.renames + 1 + i by omega] at hnext
      · rwa [show w.renames + (k + 1) = w.renames + 1 + k by omega] at hfail

/-! ## Putting targets back -/

/-- The writes that put targets back, each given with the number of its rename, without those that
fail. -/
def restoredOf (failing : List Nat) (numbered : List (FilePlan × Nat)) : List (Path × Bytes) :=
  (numbered.filter (·.2 ∉ failing)).map fun r => (r.1.path, Utf8.encode r.1.snapshot.text)

/-- The messages about the targets that are not put back. -/
def unrestoredOf (failing : List Nat) (numbered : List (FilePlan × Nat)) : List Text :=
  (numbered.filter (·.2 ∈ failing)).map fun r => restoreFailed r.1.path

theorem restoreAll_eq (w : Workspace) (files : List FilePlan) :
    w.restoreAll files =
      (unrestoredOf w.failing (files.zipIdx w.renames),
        { w with
          renames := w.renames + files.length
          disk := w.disk.writeMany (restoredOf w.failing (files.zipIdx w.renames)) }) := by
  induction files generalizing w with
  | nil => rfl
  | cons f rest ih =>
    rw [restoreAll, List.zipIdx_cons]
    by_cases hf : w.renames ∈ w.failing
    · rw [replaceFile_of_mem hf]
      simp only [ih]
      simp [unrestoredOf, restoredOf, hf, Nat.add_assoc, Nat.add_comm 1]
    · rw [replaceFile_of_not_mem hf]
      simp only [ih]
      simp [unrestoredOf, restoredOf, hf, Disk.writeMany, Nat.add_assoc, Nat.add_comm 1]

/-! ## Rendering the targets -/

/-- A target can be carried out: it still has the text that was scanned, and its edits fit it. -/
def Sound (d : Disk) (f : FilePlan) : Prop :=
  d.readText f.path = .ok f.snapshot.text ∧ ∃ text, f.apply = .ok text

/-- The result that a target gives which cannot be carried out. -/
structure Refuses (d : Disk) (f : FilePlan) (result : Except Halt Bool) : Prop where
  null : f.path.hasNull = true → result = .error (.unreadable .nullByte)
  unread : f.path.hasNull = false → d.readText f.path ≠ .ok f.snapshot.text → result = .ok false
  edits : ∀ fault, d.readText f.path = .ok f.snapshot.text → f.apply = .error fault →
    result = .error (.fault fault)

theorem render_of_sound {d : Disk} {files : List FilePlan} (h : ∀ f ∈ files, Sound d f) :
    ∃ rendered, render d files = .ok rendered ∧ rendered.map Prod.fst = files ∧
      ∀ r ∈ rendered, r.1.apply = .ok r.2 := by
  induction files with
  | nil => exact ⟨[], rfl, rfl, fun _ hr => absurd hr List.not_mem_nil⟩
  | cons f rest ih =>
    obtain ⟨hread, text, htext⟩ := h f List.mem_cons_self
    obtain ⟨rendered, hrender, hmap, happly⟩ := ih fun g hg => h g (List.mem_cons_of_mem f hg)
    refine ⟨(f, text) :: rendered, ?_, by rw [List.map_cons, hmap], ?_⟩
    · rw [render, renderFile, hread, htext, hrender]
      simp only [ne_eq, not_true, if_false]
      rfl
    · intro r hr
      rcases List.mem_cons.1 hr with rfl | hr
      · exact htext
      · exact happly r hr

theorem sound_of_render {d : Disk} {files : List FilePlan} {rendered : List (FilePlan × Text)}
    (h : render d files = .ok rendered) : ∀ r ∈ rendered, Sound d r.1 := by
  induction files generalizing rendered with
  | nil =>
    obtain rfl := Except.ok.inj h
    exact nofun
  | cons f rest ih =>
    rw [render, renderFile] at h
    cases hread : d.readText f.path with
    | error fault =>
      rw [hread] at h
      cases h
    | ok current =>
      rw [hread] at h
      by_cases hsame : current = f.snapshot.text
      · cases happly : f.apply with
        | error fault =>
          simp only [hsame, ne_eq, not_true, if_false, happly] at h
          cases h
        | ok text =>
          simp only [hsame, ne_eq, not_true, if_false, happly] at h
          cases hrest : render d rest with
          | error fault =>
            rw [hrest] at h
            cases h
          | ok others =>
            rw [hrest] at h
            obtain rfl := Except.ok.inj h
            exact List.forall_mem_cons.2 ⟨⟨hsame ▸ hread, text, happly⟩, ih hrest⟩
      · simp only [ne_eq, hsame, not_false_eq_true, if_true] at h
        cases h

theorem render_congr {d e : Disk} (h : ∀ p, e.readText p = d.readText p) (files : List FilePlan) :
    render e files = render d files := by
  induction files with
  | nil => rfl
  | cons f rest ih => rw [render, render, renderFile, renderFile, h, ih]

theorem render_of_refused {d : Disk} {before after : List FilePlan} {f : FilePlan}
    {fault : RenderFault} (hb : ∀ g ∈ before, Sound d g) (hf : renderFile d f = .error fault) :
    render d (before ++ f :: after) = .error fault := by
  induction before with
  | nil =>
    rw [List.nil_append, render, hf]
    rfl
  | cons g rest ih =>
    obtain ⟨hread, text, htext⟩ := hb g List.mem_cons_self
    rw [List.cons_append, render, renderFile, hread, htext,
      ih fun g' hg' => hb g' (List.mem_cons_of_mem g hg')]
    simp only [ne_eq, not_true, if_false]
    rfl

theorem exists_first_unsound {d : Disk} {files : List FilePlan} (h : ¬ ∀ f ∈ files, Sound d f) :
    ∃ before f after, files = before ++ f :: after ∧ (∀ g ∈ before, Sound d g) ∧ ¬ Sound d f := by
  induction files with
  | nil => exact absurd (fun _ hf => absurd hf List.not_mem_nil) h
  | cons f rest ih =>
    by_cases hf : Sound d f
    · have hrest : ¬ ∀ g ∈ rest, Sound d g := by
        intro hall
        apply h
        intro g hg
        rcases List.mem_cons.1 hg with rfl | hg
        · exact hf
        · exact hall g hg
      obtain ⟨before, g, after, rfl, hbefore, hg⟩ := ih hrest
      refine ⟨f :: before, g, after, rfl, ?_, hg⟩
      intro g' hg'
      rcases List.mem_cons.1 hg' with rfl | hg'
      · exact hf
      · exact hbefore g' hg'
    · exact ⟨[], f, rest, rfl, fun _ hg => absurd hg List.not_mem_nil, hf⟩

theorem applyPlan_of_refused {plan : Plan} {w : Workspace} {before after : List FilePlan}
    {f : FilePlan} (hp : plan.files = before ++ f :: after) (hb : ∀ g ∈ before, Sound w.disk g)
    (hf : ¬ Sound w.disk f) :
    ∃ result error, applyPlan plan w = (result, { w with lastError := error }) ∧
      result ≠ .ok true ∧ Refuses w.disk f result := by
  have hrender : ∀ fault, renderFile w.disk f = .error fault →
      render w.disk plan.files = .error fault :=
    fun fault h => hp ▸ render_of_refused hb h
  cases hread : w.disk.readText f.path with
  | error fault =>
    have hfault := hrender (.unreadable fault) (by rw [renderFile, hread])
    by_cases hnull : f.path.hasNull = true
    · obtain rfl : fault = .nullByte :=
        Except.error.inj (hread.symm.trans (Disk.readText_eq_nullByte_iff.2 hnull))
      refine ⟨.error (.unreadable .nullByte), none, ?_, nofun, ⟨fun _ => rfl, ?_, ?_⟩⟩
      · rw [applyPlan]
        simp only [hfault]
      · intro hfree
        rw [hnull] at hfree
        cases hfree
      · intro fault hok
        rw [hread] at hok
        cases hok
    · have hne : fault ≠ .nullByte := by
        rintro rfl
        exact hnull (Disk.readText_eq_nullByte_iff.1 hread)
      refine ⟨.ok false, some fault.message, ?_, nofun, ⟨fun h => absurd h hnull, ?_, ?_⟩⟩
      · rw [applyPlan]
        simp only [hfault]
      · exact fun _ _ => rfl
      · intro fault' hok
        rw [hread] at hok
        cases hok
  | ok current =>
    have hfree : f.path.hasNull ≠ true := by
      intro hnull
      rw [Disk.readText_eq_nullByte_iff.2 hnull] at hread
      cases hread
    by_cases hcurrent : current = f.snapshot.text
    · subst hcurrent
      cases happly : f.apply with
      | ok text => exact absurd ⟨hread, text, happly⟩ hf
      | error fault =>
        have hfault := hrender (.broken fault) (by rw [renderFile, hread, happly]; simp)
        refine ⟨.error (.fault fault), none, ?_, nofun, ⟨fun h => absurd h hfree, ?_, ?_⟩⟩
        · rw [applyPlan]
          simp only [hfault]
        · exact fun _ hne => absurd hread hne
        · intro fault' _ happly'
          rw [happly] at happly'
          rw [Except.error.inj happly']
    · have hfault := hrender (.stale f.path) (by rw [renderFile, hread]; simp [hcurrent])
      refine ⟨.ok false, some ("File changed since it was scanned: ".toList ++ f.path.text), ?_,
        nofun, ⟨fun h => absurd h hfree, fun _ _ => rfl, ?_⟩⟩
      · rw [applyPlan]
        simp only [hfault]
      · intro fault hok
        rw [hread] at hok
        exact absurd (Except.ok.inj hok) hcurrent

theorem applyPlan_of_forall_not_mem {plan : Plan} {w : Workspace}
    {rendered : List (FilePlan × Text)} (hr : render w.disk plan.files = .ok rendered)
    (h : ∀ i < rendered.length, w.renames + i ∉ w.failing) :
    applyPlan plan w =
      (.ok true, { w with
        lastError := none
        renames := w.renames + rendered.length
        disk := w.disk.writeMany (writesOf rendered) }) := by
  have hwrite := writeAll_of_forall_not_mem (w := { w with lastError := none }) [] h
  rw [applyPlan]
  simp only [hr, hwrite]

/-- The targets written before the write with number `k` of a plan, the last one first, each with the
number of the rename that puts it back. -/
def restores (w : Workspace) (files : List FilePlan) (k : Nat) : List (FilePlan × Nat) :=
  (files.take k).reverse.zipIdx (w.renames + k + 1)

/-- The disk after the first `k` targets were written and then put back, as far as the renames of
that did not fail. -/
def undone (w : Workspace) (rendered : List (FilePlan × Text)) (k : Nat) : Disk :=
  (w.disk.writeMany (writesOf (rendered.take k))).writeMany
    (restoredOf w.failing (w.restores (rendered.map Prod.fst) k))

theorem applyPlan_of_mem {plan : Plan} {w : Workspace} {rendered : List (FilePlan × Text)}
    (hr : render w.disk plan.files = .ok rendered) (hmap : rendered.map Prod.fst = plan.files)
    {k : Nat} (hk : k < plan.files.length) (h : ∀ i < k, w.renames + i ∉ w.failing)
    (hfail : w.renames + k ∈ w.failing) :
    applyPlan plan w =
      (.ok false, { w with
        lastError := some (Text.join "; ".toList
          (writeFailed :: unrestoredOf w.failing (w.restores plan.files k)))
        renames := w.renames + k + 1 + k
        disk := w.undone rendered k }) := by
  have hlength : rendered.length = plan.files.length := by rw [← hmap, List.length_map]
  have hwrite := writeAll_of_mem (w := { w with lastError := none }) [] (hlength ▸ hk) h hfail
  rw [List.map_take, hmap, List.append_nil] at hwrite
  rw [applyPlan]
  simp only [hr, hwrite, restoreAll_eq, List.length_reverse, List.length_take,
    Nat.min_eq_left (Nat.le_of_lt hk), undone, hmap]
  rfl

theorem Sound.isFile {d : Disk} {f : FilePlan} (h : Sound d f) : d.IsFile f.path := by
  obtain ⟨bytes, hbytes, -⟩ := Disk.readText_eq_ok_iff.1 h.1
  exact ⟨bytes, hbytes⟩

/-- A target that reads as scanned reads so again from the text that was scanned. -/
theorem Sound.textOf_encode {d : Disk} {f : FilePlan} (h : Sound d f) :
    Disk.textOf (Utf8.encode f.snapshot.text) = .ok f.snapshot.text := by
  obtain ⟨bytes, -, htext⟩ := Disk.readText_eq_ok_iff.1 h.1
  exact Disk.textOf_encode_of_textOf htext

theorem mem_writesOf {rendered : List (FilePlan × Text)} {write : Path × Bytes}
    (h : write ∈ writesOf rendered) : ∃ f ∈ rendered.map Prod.fst, f.path = write.1 := by
  obtain ⟨r, hr, rfl⟩ := List.mem_map.1 h
  exact ⟨r.1, List.mem_map_of_mem hr, rfl⟩

theorem mem_restores {w : Workspace} {files : List FilePlan} {k : Nat} {r : FilePlan × Nat}
    (h : r ∈ w.restores files k) : r.1 ∈ files.take k := by
  have hmem := List.fst_mem_of_mem_zipIdx h
  exact List.mem_reverse.1 hmem

theorem mem_restoredOf_iff {failing : List Nat} {numbered : List (FilePlan × Nat)}
    {write : Path × Bytes} :
    write ∈ restoredOf failing numbered ↔
      ∃ r ∈ numbered, r.2 ∉ failing ∧ (r.1.path, Utf8.encode r.1.snapshot.text) = write := by
  simp only [restoredOf, List.mem_map, List.mem_filter, decide_eq_true_eq, and_assoc]

/-- All that carrying out a plan can do. -/
theorem applyPlan_cases (plan : Plan) (w : Workspace) :
    (∃ result error, applyPlan plan w = (result, { w with lastError := error }) ∧
      result ≠ .ok true) ∨
    (∀ f ∈ plan.files, Sound w.disk f) ∧ ∃ rendered, rendered.map Prod.fst = plan.files ∧
      (∀ r ∈ rendered, r.1.apply = .ok r.2) ∧
      (applyPlan plan w = (.ok true, { w with
          lastError := none
          renames := w.renames + rendered.length
          disk := w.disk.writeMany (writesOf rendered) }) ∨
        ∃ k < plan.files.length, (∀ i < k, w.renames + i ∉ w.failing) ∧
          w.renames + k ∈ w.failing ∧
          applyPlan plan w = (.ok false, { w with
            lastError := some (Text.join "; ".toList
              (writeFailed :: unrestoredOf w.failing (w.restores plan.files k)))
            renames := w.renames + k + 1 + k
            disk := w.undone rendered k })) := by
  by_cases hsound : ∀ f ∈ plan.files, Sound w.disk f
  · right
    obtain ⟨rendered, hr, hmap, happly⟩ := render_of_sound hsound
    have hlength : rendered.length = plan.files.length := by rw [← hmap, List.length_map]
    refine ⟨hsound, rendered, hmap, happly, ?_⟩
    by_cases hfail : ∃ k, k < plan.files.length ∧ w.renames + k ∈ w.failing
    · right
      obtain ⟨hk, hmem⟩ := Nat.find_spec hfail
      have hleast : ∀ i < Nat.find hfail, w.renames + i ∉ w.failing := by
        intro i hi hbad
        exact Nat.find_min hfail hi ⟨Nat.lt_trans hi hk, hbad⟩
      exact ⟨_, hk, hleast, hmem, applyPlan_of_mem hr hmap hk hleast hmem⟩
    · left
      apply applyPlan_of_forall_not_mem hr
      intro i hi hbad
      exact hfail ⟨i, hlength ▸ hi, hbad⟩
  · left
    obtain ⟨before, f, after, hp, hb, hf⟩ := exists_first_unsound hsound
    obtain ⟨result, error, heq, hne, -⟩ := applyPlan_of_refused hp hb hf
    exact ⟨result, error, heq, hne⟩

/-! ## The files after a plan -/

/-- The targets lead to pairwise distinct files. -/
def Apart (d : Disk) (files : List FilePlan) : Prop :=
  (files.map fun f => f.path.resolve d.cwd).Nodup

theorem Apart.nodup {d : Disk} {files : List FilePlan} (h : Apart d files) : files.Nodup :=
  List.Nodup.of_map _ h

theorem Apart.eq_of_resolve_eq {d : Disk} {files : List FilePlan} (h : Apart d files)
    {f g : FilePlan} (hf : f ∈ files) (hg : g ∈ files)
    (heq : f.path.resolve d.cwd = g.path.resolve d.cwd) : f = g :=
  List.inj_on_of_nodup_map h hf hg heq

/-- A target has its new text. -/
def Written (d : Disk) (f : FilePlan) : Prop :=
  ∃ text, f.apply = .ok text ∧ d.readBytes f.path = .ok (Utf8.encode text)

section

variable {w : Workspace} {rendered : List (FilePlan × Text)} {k : Nat}

theorem isFile_of_mem_writesOf {d : Disk} (hsound : ∀ r ∈ rendered, Sound d r.1) :
    ∀ write ∈ writesOf rendered, d.IsFile write.1 := by
  intro write hwrite
  obtain ⟨r, hr, rfl⟩ := List.mem_map.1 hwrite
  exact (hsound r hr).isFile

theorem written_writeMany {d : Disk} (hsound : ∀ r ∈ rendered, Sound d r.1)
    (hapart : Apart d (rendered.map Prod.fst)) (happly : ∀ r ∈ rendered, r.1.apply = .ok r.2)
    {r : FilePlan × Text} (hr : r ∈ rendered) : Written (d.writeMany (writesOf rendered)) r.1 := by
  have hwrite : (r.1.path, Utf8.encode r.2) ∈ writesOf rendered :=
    List.mem_map_of_mem (f := fun r : FilePlan × Text => (r.1.path, Utf8.encode r.2)) hr
  obtain ⟨write, hmem, hplace, hread⟩ := Disk.readBytes_writeMany_of_mem
    (isFile_of_mem_writesOf hsound) ⟨_, hwrite, rfl⟩ (hsound r hr).isFile
  -- The write that decides is one to the same place, so it belongs to the same target.
  obtain ⟨r', hr', rfl⟩ := List.mem_map.1 hmem
  have hsame : r'.1 = r.1 := hapart.eq_of_resolve_eq (List.mem_map_of_mem hr')
    (List.mem_map_of_mem hr) hplace
  exact ⟨r'.2, hsame ▸ happly r' hr', hread⟩

theorem sound_of_mem_restores (hsound : ∀ r ∈ rendered, Sound w.disk r.1) {f : FilePlan} {n : Nat}
    (h : (f, n) ∈ w.restores (rendered.map Prod.fst) k) : Sound w.disk f := by
  obtain ⟨r, hr, rfl⟩ := List.mem_map.1 (List.mem_of_mem_take (mem_restores h))
  exact hsound r hr

theorem eq_of_mem_restores {files : List FilePlan} (hnodup : files.Nodup) {f : FilePlan} {m n : Nat}
    (hm : (f, m) ∈ w.restores files k) (hn : (f, n) ∈ w.restores files k) : m = n := by
  obtain ⟨hlem, hm⟩ := List.mk_mem_zipIdx_iff_le_and_getElem?_sub.1 hm
  obtain ⟨hlen, hn⟩ := List.mk_mem_zipIdx_iff_le_and_getElem?_sub.1 hn
  have hreverse : (files.take k).reverse.Nodup :=
    List.nodup_reverse.2 (hnodup.sublist (List.take_sublist k files))
  obtain ⟨hlt, -⟩ := List.getElem?_eq_some_iff.1 hm
  have hindex := (List.getElem?_inj hlt hreverse).1 (hm.trans hn.symm)
  omega

/-- Writing the first targets, as seen by what follows it. -/
theorem alike_written (hsound : ∀ r ∈ rendered, Sound w.disk r.1) :
    w.disk.Alike (w.disk.writeMany (writesOf (rendered.take k))) :=
  Disk.alike_writeMany (isFile_of_mem_writesOf fun r hr => hsound r (List.mem_of_mem_take hr))

theorem isFile_of_mem_restoredOf (hsound : ∀ r ∈ rendered, Sound w.disk r.1) :
    ∀ write ∈ restoredOf w.failing (w.restores (rendered.map Prod.fst) k),
      (w.disk.writeMany (writesOf (rendered.take k))).IsFile write.1 := by
  intro write hwrite
  obtain ⟨r, hr, -, rfl⟩ := mem_restoredOf_iff.1 hwrite
  exact (alike_written hsound).isFile (sound_of_mem_restores hsound hr).isFile

theorem alike_undone (hsound : ∀ r ∈ rendered, Sound w.disk r.1) :
    w.disk.Alike (w.undone rendered k) :=
  (alike_written hsound).trans (Disk.alike_writeMany (isFile_of_mem_restoredOf hsound))

theorem view_undone_of_forall_ne (hsound : ∀ r ∈ rendered, Sound w.disk r.1) {place : List Text}
    (hne : ∀ f ∈ (rendered.map Prod.fst).take k, f.path.resolve w.disk.cwd ≠ place) :
    (w.undone rendered k).view place = w.disk.view place := by
  have hwritten : (w.disk.writeMany (writesOf (rendered.take k))).view place =
      w.disk.view place := by
    apply Disk.view_writeMany_of_forall_ne
      (isFile_of_mem_writesOf fun r hr => hsound r (List.mem_of_mem_take hr))
    intro write hwrite
    obtain ⟨f, hf, hpath⟩ := mem_writesOf hwrite
    exact hpath ▸ hne f (List.map_take ▸ hf)
  rw [← hwritten]
  apply Disk.view_writeMany_of_forall_ne (isFile_of_mem_restoredOf hsound)
  intro write hwrite
  obtain ⟨r, hr, -, rfl⟩ := mem_restoredOf_iff.1 hwrite
  rw [(alike_written hsound).cwd]
  exact hne r.1 (mem_restores hr)

/-- A target that is put back reads as it was scanned. -/
theorem readText_undone_of_not_mem (hsound : ∀ r ∈ rendered, Sound w.disk r.1)
    (hapart : Apart w.disk (rendered.map Prod.fst)) {f : FilePlan} {n : Nat}
    (h : (f, n) ∈ w.restores (rendered.map Prod.fst) k) (hn : n ∉ w.failing) :
    (w.undone rendered k).readText f.path = .ok f.snapshot.text := by
  have hmem : (f.path, Utf8.encode f.snapshot.text) ∈
      restoredOf w.failing (w.restores (rendered.map Prod.fst) k) :=
    mem_restoredOf_iff.2 ⟨(f, n), h, hn, rfl⟩
  obtain ⟨write, hwrite, hplace, hread⟩ := Disk.readBytes_writeMany_of_mem
    (isFile_of_mem_restoredOf hsound) ⟨_, hmem, rfl⟩
    ((alike_written hsound).isFile (sound_of_mem_restores hsound h).isFile)
  obtain ⟨⟨g, m⟩, hg, -, rfl⟩ := mem_restoredOf_iff.1 hwrite
  rw [(alike_written hsound).cwd] at hplace
  obtain rfl : g = f := hapart.eq_of_resolve_eq (List.mem_of_mem_take (mem_restores hg))
    (List.mem_of_mem_take (mem_restores h)) hplace
  exact Disk.readText_eq_ok_iff.2 ⟨_, hread, (sound_of_mem_restores hsound h).textOf_encode⟩

/-- A target that is not put back keeps its new text. -/
theorem written_undone_of_mem (hsound : ∀ r ∈ rendered, Sound w.disk r.1)
    (hapart : Apart w.disk (rendered.map Prod.fst)) (happly : ∀ r ∈ rendered, r.1.apply = .ok r.2)
    {f : FilePlan} {n : Nat} (h : (f, n) ∈ w.restores (rendered.map Prod.fst) k)
    (hn : n ∈ w.failing) : Written (w.undone rendered k) f := by
  have hfiles : f ∈ (rendered.take k).map Prod.fst := List.map_take ▸ mem_restores h
  obtain ⟨r, hr, rfl⟩ := List.mem_map.1 hfiles
  obtain ⟨text, htext, hread⟩ : Written (w.disk.writeMany (writesOf (rendered.take k))) r.1 := by
    apply written_writeMany (fun r' hr' => hsound r' (List.mem_of_mem_take hr')) _
      (fun r' hr' => happly r' (List.mem_of_mem_take hr')) hr
    exact hapart.sublist (((List.take_sublist k rendered).map _).map _)
  refine ⟨text, htext, ?_⟩
  rw [← hread]
  apply Disk.readBytes_writeMany_of_forall_ne (isFile_of_mem_restoredOf hsound)
  intro write hwrite hplace
  obtain ⟨⟨g, m⟩, hg, hm, rfl⟩ := mem_restoredOf_iff.1 hwrite
  rw [(alike_written hsound).cwd] at hplace
  obtain rfl : g = r.1 := hapart.eq_of_resolve_eq (List.mem_of_mem_take (mem_restores hg))
    (List.mem_of_mem_take (mem_restores h)) hplace
  -- A target has one restoring rename, so it cannot both fail and go well.
  exact hm (eq_of_mem_restores hapart.nodup h hg ▸ hn)

/-- A target that was not reached keeps its bytes. -/
theorem readBytes_undone_of_mem_drop (hsound : ∀ r ∈ rendered, Sound w.disk r.1)
    (hapart : Apart w.disk (rendered.map Prod.fst)) {f : FilePlan}
    (hf : f ∈ (rendered.map Prod.fst).drop k) :
    (w.undone rendered k).readBytes f.path = w.disk.readBytes f.path := by
  apply (alike_undone hsound).readBytes
  apply view_undone_of_forall_ne hsound
  intro g hg hplace
  obtain rfl : g = f := hapart.eq_of_resolve_eq (List.mem_of_mem_take hg)
    (List.mem_of_mem_drop hf) hplace
  exact List.disjoint_take_drop hapart.nodup (Nat.le_refl k) hg hf

theorem exists_mem_restores {files : List FilePlan} {f : FilePlan} (h : f ∈ files.take k) :
    ∃ n, (f, n) ∈ w.restores files k := by
  obtain ⟨i, hi⟩ := List.mem_iff_getElem?.1 (List.mem_reverse.2 h)
  refine ⟨w.renames + k + 1 + i, List.mk_mem_zipIdx_iff_le_and_getElem?_sub.2 ⟨by omega, ?_⟩⟩
  rwa [Nat.add_sub_cancel_left]

/-- Where every target that was written is put back, the place of such a target has the text that was
scanned for it or for another target at that place. -/
theorem exists_view_undone (hsound : ∀ r ∈ rendered, Sound w.disk r.1)
    (hback : ∀ f n, (f, n) ∈ w.restores (rendered.map Prod.fst) k → n ∉ w.failing) {place : List Text}
    (hplace : ∃ f ∈ (rendered.map Prod.fst).take k, f.path.resolve w.disk.cwd = place) :
    ∃ g, Sound w.disk g ∧ g.path.resolve w.disk.cwd = place ∧
      (w.undone rendered k).view place = some (some (Utf8.encode g.snapshot.text)) := by
  obtain ⟨f, hf, hplace⟩ := hplace
  obtain ⟨n, hn⟩ := exists_mem_restores (w := w) hf
  have hmem : (f.path, Utf8.encode f.snapshot.text) ∈
      restoredOf w.failing (w.restores (rendered.map Prod.fst) k) :=
    mem_restoredOf_iff.2 ⟨(f, n), hn, hback f n hn, rfl⟩
  rcases Disk.view_writeMany (isFile_of_mem_restoredOf hsound) place with
    ⟨write, hwrite, hto, hview⟩ | ⟨hnone, -⟩
  · obtain ⟨⟨g, m⟩, hg, -, rfl⟩ := mem_restoredOf_iff.1 hwrite
    rw [(alike_written hsound).cwd] at hto
    exact ⟨g, sound_of_mem_restores hsound hg, hto, hview⟩
  · refine absurd ?_ (hnone _ hmem)
    rw [(alike_written hsound).cwd]
    exact hplace

/-- Where every target that was written is put back, all files read as before, whether or not some
targets lead to one file. -/
theorem readText_undone (hsound : ∀ r ∈ rendered, Sound w.disk r.1)
    (hback : ∀ f n, (f, n) ∈ w.restores (rendered.map Prod.fst) k → n ∉ w.failing) (p : Path) :
    (w.undone rendered k).readText p = w.disk.readText p := by
  by_cases hp : ∃ f ∈ (rendered.map Prod.fst).take k,
      f.path.resolve w.disk.cwd = p.resolve w.disk.cwd
  · obtain ⟨g, hg, hto, hview⟩ := exists_view_undone hsound hback hp
    obtain ⟨bytes, hbytes, htext⟩ := Disk.readText_eq_ok_iff.1 hg.1
    have hold := (Disk.readBytes_eq_ok_iff.1 hbytes).2
    rw [hto] at hold
    exact (alike_undone hsound).readText_of_textOf hold hview htext hg.textOf_encode
  · have hview : (w.undone rendered k).view (p.resolve w.disk.cwd) =
        w.disk.view (p.resolve w.disk.cwd) :=
      view_undone_of_forall_ne hsound fun f hf heq => hp ⟨f, hf, heq⟩
    rw [Disk.readText, Disk.readText, (alike_undone hsound).readBytes hview]

end

/-- Carrying out a plan touches no place but those of its targets, and leaves nothing beside them. -/
theorem applyPlan_frame (plan : Plan) (w : Workspace) :
    (applyPlan plan w).2.staged = w.staged ∧ w.disk.Alike (applyPlan plan w).2.disk ∧
      ∀ place, (∀ f ∈ plan.files, f.path.resolve w.disk.cwd ≠ place) →
        (applyPlan plan w).2.disk.view place = w.disk.view place := by
  rcases applyPlan_cases plan w with ⟨result, error, heq, -⟩ | ⟨hsound, rendered, hmap, -, hcase⟩
  · rw [heq]
    exact ⟨rfl, Disk.Alike.refl _, fun _ _ => rfl⟩
  · have hsound' : ∀ r ∈ rendered, Sound w.disk r.1 :=
      fun r hr => hsound r.1 (hmap ▸ List.mem_map_of_mem hr)
    rcases hcase with heq | ⟨k, -, -, -, heq⟩
    · rw [heq]
      have hfiles := isFile_of_mem_writesOf hsound'
      refine ⟨rfl, Disk.alike_writeMany hfiles, ?_⟩
      intro place hne
      apply Disk.view_writeMany_of_forall_ne hfiles
      intro write hwrite
      obtain ⟨f, hf, hpath⟩ := mem_writesOf hwrite
      exact hpath ▸ hne f (hmap ▸ hf)
    · rw [heq]
      refine ⟨rfl, alike_undone hsound', ?_⟩
      intro place hne
      apply view_undone_of_forall_ne hsound'
      intro f hf
      exact hne f (hmap ▸ List.mem_of_mem_take hf)

/-- Carrying out a plan asks nothing and gives no notice. -/
theorem applyPlan_logs (plan : Plan) (w : Workspace) :
    (applyPlan plan w).2.asked = w.asked ∧ (applyPlan plan w).2.notes = w.notes := by
  rcases applyPlan_cases plan w with ⟨result, error, heq, -⟩ | ⟨-, rendered, -, -, hcase⟩
  · rw [heq]
    exact ⟨rfl, rfl⟩
  · rcases hcase with heq | ⟨k, -, -, -, heq⟩
    · rw [heq]
      exact ⟨rfl, rfl⟩
    · rw [heq]
      exact ⟨rfl, rfl⟩

theorem applyPlan_answers (plan : Plan) (w : Workspace) :
    (applyPlan plan w).2.answers = w.answers := by
  rcases applyPlan_cases plan w with ⟨result, error, heq, -⟩ | ⟨-, rendered, -, -, hcase⟩
  · rw [heq]
  · rcases hcase with heq | ⟨k, -, -, -, heq⟩
    · rw [heq]
    · rw [heq]

theorem applyPlan_disk_of_error {plan : Plan} {w w' : Workspace} {h : Halt}
    (happly : applyPlan plan w = (.error h, w')) : w'.disk = w.disk := by
  rcases applyPlan_cases plan w with ⟨result, error, heq, -⟩ | ⟨-, rendered, -, -, hcase⟩
  · cases happly.symm.trans heq
    rfl
  · rcases hcase with heq | ⟨k, -, -, -, heq⟩
    · cases happly.symm.trans heq
    · cases happly.symm.trans heq

/-- Some target cannot be put back after a write of the plan fails. -/
def RestoreFails (w : Workspace) (plan : Plan) : Prop :=
  ∃ k < plan.files.length, (∀ i < k, w.renames + i ∉ w.failing) ∧ w.renames + k ∈ w.failing ∧
    ∃ r ∈ w.restores plan.files k, r.2 ∈ w.failing

/-- A plan that is not carried out leaves all files reading as before, unless a target cannot be put
back. -/
theorem readText_applyPlan_of_ne {plan : Plan} {w : Workspace} (h : (applyPlan plan w).1 ≠ .ok true)
    (hback : ¬ RestoreFails w plan) (p : Path) :
    (applyPlan plan w).2.disk.readText p = w.disk.readText p := by
  rcases applyPlan_cases plan w with ⟨result, error, heq, -⟩ | ⟨hsound, rendered, hmap, -, hcase⟩
  · rw [heq]
  · rcases hcase with heq | ⟨k, hk, hleast, hfail, heq⟩
    · rw [heq] at h
      exact absurd rfl h
    · rw [heq]
      apply readText_undone
      · intro r hr
        exact hsound r.1 (hmap ▸ List.mem_map_of_mem hr)
      · intro f n hn hbad
        exact hback ⟨k, hk, hleast, hfail, (f, n), hmap ▸ hn, hbad⟩

/-- The outcome of a plan whose targets lead to distinct files, for every set of failing renames. -/
theorem applyPlan_outcome (plan : Plan) (w : Workspace) {w' : Workspace}
    {result : Except Halt Bool} (h : applyPlan plan w = (result, w')) :
    (∀ before f after, plan.files = before ++ f :: after → (∀ g ∈ before, Sound w.disk g) →
      ¬ Sound w.disk f → w'.disk = w.disk ∧ Refuses w.disk f result) ∧
    ((∀ f ∈ plan.files, Sound w.disk f) → Apart w.disk plan.files →
      (∀ i < plan.files.length, w.renames + i ∉ w.failing) →
      result = .ok true ∧ ∀ f ∈ plan.files, Written w'.disk f) ∧
    (∀ k < plan.files.length, (∀ f ∈ plan.files, Sound w.disk f) → Apart w.disk plan.files →
      (∀ i < k, w.renames + i ∉ w.failing) → w.renames + k ∈ w.failing →
      result = .ok false ∧
      (∀ f ∈ plan.files.drop k, w'.disk.readBytes f.path = w.disk.readBytes f.path) ∧
      (∀ f n, (f, n) ∈ w.restores plan.files k → n ∉ w.failing →
        w'.disk.readText f.path = .ok f.snapshot.text) ∧
      (∀ f n, (f, n) ∈ w.restores plan.files k → n ∈ w.failing → Written w'.disk f) ∧
      w'.lastError = some (Text.join "; ".toList
        (writeFailed :: unrestoredOf w.failing (w.restores plan.files k)))) ∧
    w'.staged = w.staged ∧
    ∀ place, (∀ f ∈ plan.files, f.path.resolve w.disk.cwd ≠ place) →
      w'.disk.view place = w.disk.view place := by
  refine ⟨?_, ?_, ?_, ?_⟩
  · intro before f after hp hb hf
    obtain ⟨result', error, heq, -, hrefuses⟩ := applyPlan_of_refused hp hb hf
    cases h.symm.trans heq
    exact ⟨rfl, hrefuses⟩
  · intro hsound hapart hnone
    obtain ⟨rendered, hr, hmap, happly⟩ := render_of_sound hsound
    have hlength : rendered.length = plan.files.length := by rw [← hmap, List.length_map]
    cases h.symm.trans (applyPlan_of_forall_not_mem hr (hlength ▸ hnone))
    refine ⟨rfl, ?_⟩
    rw [← hmap] at hapart hsound ⊢
    rw [List.forall_mem_map] at hsound ⊢
    intro r hr
    exact written_writeMany hsound hapart happly hr
  · intro k hk hsound hapart hleast hfail
    obtain ⟨rendered, hr, hmap, happly⟩ := render_of_sound hsound
    cases h.symm.trans (applyPlan_of_mem hr hmap hk hleast hfail)
    rw [← hmap] at hapart hsound ⊢
    rw [List.forall_mem_map] at hsound
    refine ⟨rfl, ?_, ?_, ?_, rfl⟩
    · intro f hf
      exact readBytes_undone_of_mem_drop hsound hapart hf
    · intro f n hrestore hn
      exact readText_undone_of_not_mem hsound hapart hrestore hn
    · intro f n hrestore hn
      exact written_undone_of_mem hsound hapart happly hrestore hn
  · have hframe := applyPlan_frame plan w
    rw [h] at hframe
    exact ⟨hframe.1, hframe.2.2⟩

/-- Three targets, of which the last one cannot be written and the first one cannot be put back. -/
theorem applyPlan_outcome_of_failed_restore :
    let target (name : Text) : FilePlan :=
      { snapshot := ⟨Path.ofText name, "old".toList, none⟩, insertions := [⟨0, "new ".toList⟩] }
    let plan : Plan := ⟨[target ['a'], target ['b'], target ['c']]⟩
    let disk := (Disk.empty []).writeMany
      (plan.paths.map fun p => (p, Utf8.encode "old".toList))
    let w : Workspace := { disk, failing := [2, 4] }
    (∀ f ∈ plan.files, Sound w.disk f) ∧ Apart w.disk plan.files ∧
      (applyPlan plan w).1 = .ok false ∧ Written (applyPlan plan w).2.disk (target ['a']) ∧
      (applyPlan plan w).2.disk.readText (Path.ofText ['b']) = .ok "old".toList ∧
      (applyPlan plan w).2.disk.readBytes (Path.ofText ['c']) =
        w.disk.readBytes (Path.ofText ['c']) ∧
      (applyPlan plan w).2.lastError =
        some "disk full; could not restore a: disk full".toList := by
  intro target plan disk w
  have happly : ∀ name, ∃ text, (target name).apply = .ok text := by
    intro name
    exact ⟨_, FilePlan.apply_insertions _ (List.pairwise_singleton _ _) (by simp)⟩
  have hread : ∀ p ∈ plan.paths, w.disk.readText p = .ok "old".toList := by decide
  have hsound : ∀ f ∈ plan.files, Sound w.disk f := by
    intro f hf
    have hfile := hread f.path (List.mem_map_of_mem hf)
    simp only [plan, List.mem_cons, List.not_mem_nil, or_false] at hf
    rcases hf with rfl | rfl | rfl
    all_goals exact ⟨hfile, happly _⟩
  have hapart : Apart w.disk plan.files := by
    unfold Apart
    decide
  have hrestores : w.restores plan.files 2 = [(target ['b'], 3), (target ['a'], 4)] := rfl
  obtain ⟨-, -, hfail, -⟩ := applyPlan_outcome plan w (Prod.eta _).symm
  obtain ⟨hresult, hlater, hback, hkept, herror⟩ := hfail 2 (by decide) hsound hapart
    (by decide) (by decide)
  rw [hrestores] at hback hkept herror
  refine ⟨hsound, hapart, hresult, ?_, ?_, ?_, ?_⟩
  · exact hkept (target ['a']) 4 (List.mem_cons_of_mem _ List.mem_cons_self) (by decide)
  · exact hback (target ['b']) 3 List.mem_cons_self (by decide)
  · exact hlater (target ['c']) List.mem_cons_self
  · rw [herror]
    rfl

/-- A path with a null character stops the run instead of being refused, and of two targets that lead
to one file only the later one gets its text, though their paths are distinct. -/
theorem applyPlan_of_null_or_shared_target :
    let target (path inserted : Text) : FilePlan :=
      { snapshot := ⟨Path.ofText path, "old".toList, none⟩, insertions := [⟨0, inserted⟩] }
    let w : Workspace :=
      { disk := ((Disk.empty []).makeFolder (Path.ofText ['d'])).write (Path.ofText ['a'])
          (Utf8.encode "old".toList) }
    let null : Plan := ⟨[target ['a', '\x00'] ['x']]⟩
    let shared : Plan := ⟨[target ['a'] ['x'], target "d/../a".toList ['y']]⟩
    (null.paths.Nodup ∧ (∀ f ∈ null.files, ¬ Sound w.disk f) ∧ (applyPlan null w).1 ≠ .ok false ∧
      ∀ fault, (applyPlan null w).1 ≠ .error (.fault fault)) ∧
    shared.paths.Nodup ∧ (∀ f ∈ shared.files, Sound w.disk f) ∧ w.failing = [] ∧
      ∃ f ∈ shared.files, ¬ Written (applyPlan shared w).2.disk f := by
  intro target w null shared
  have hnull : w.disk.readText (Path.ofText ['a', '\x00']) = .error .nullByte := by decide
  have hstop : (applyPlan null w).1 = .error (.unreadable .nullByte) := by decide
  refine ⟨⟨by decide, ?_, by rw [hstop]; exact nofun, by rw [hstop]; exact nofun⟩, by decide, ?_⟩
  · intro f hf hsound
    obtain rfl := List.mem_singleton.1 hf
    cases hnull.symm.trans hsound.1
  · have happly : ∀ path c, (target path [c]).apply = .ok (c :: "old".toList) := by
      intro path c
      exact FilePlan.apply_insertions _ (List.pairwise_singleton _ _) (by simp)
    have hx : (target ['a'] ['x']).apply = .ok "xold".toList := happly _ _
    have hy : (target "d/../a".toList ['y']).apply = .ok "yold".toList := happly _ _
    have hread : ∀ p ∈ shared.paths, w.disk.readText p = .ok "old".toList := by decide
    have hsound : ∀ f ∈ shared.files, Sound w.disk f := by
      intro f hf
      have hfile := hread f.path (List.mem_map_of_mem hf)
      simp only [shared, List.mem_cons, List.not_mem_nil, or_false] at hf
      rcases hf with rfl | rfl
      · exact ⟨hfile, _, hx⟩
      · exact ⟨hfile, _, hy⟩
    refine ⟨hsound, rfl, target ['a'] ['x'], List.mem_cons_self, ?_⟩
    rintro ⟨text, htext, hbytes⟩
    obtain rfl := Except.ok.inj (hx.symm.trans htext)
    have hrender : render w.disk shared.files = .ok [(target ['a'] ['x'], "xold".toList),
        (target "d/../a".toList ['y'], "yold".toList)] := by
      simp only [shared, render, renderFile, hx, hy, hread _ List.mem_cons_self,
        hread _ (List.mem_cons_of_mem _ List.mem_cons_self)]
      rfl
    rw [applyPlan_of_forall_not_mem hrender (fun _ _ => List.not_mem_nil)] at hbytes
    revert hbytes
    decide

end PropAccord.Workspace
