import PropAccord.Proofs.Writing

/-!
# What carrying out a plan does to bytes

A file is read with line feeds for all its line ends, and written as it is in memory. So a plan leaves
the bytes outside its spans alone exactly where these hold no carriage return, and putting a file back
gives it its bytes again exactly where it held none.
-/

namespace PropAccord

set_option autoImplicit false

namespace Text

/-- The number of characters of a file before the character with number `n` of its text, which has one
line feed for each line end of the file. -/
def fileOffset : Text → Nat → Nat
  | _, 0 => 0
  | [], _ + 1 => 0
  | '\r' :: '\n' :: rest, n + 1 => fileOffset rest n + 2
  | _ :: rest, n + 1 => fileOffset rest n + 1

/-- The line ends of a part of a file are those of the part of its text. -/
theorem unifyNewlines_part (t : Text) (m n : Nat) :
    unifyNewlines ((t.take (fileOffset t n)).drop (fileOffset t m)) =
      ((unifyNewlines t).take n).drop m := by
  induction t, n using fileOffset.induct generalizing m with
  | case1 t => simp [fileOffset, unifyNewlines]
  | case2 n => simp [fileOffset, unifyNewlines]
  | case3 rest n ih =>
    cases m with
    | zero => simpa [fileOffset, unifyNewlines] using ih 0
    | succ m => simpa [fileOffset, unifyNewlines] using ih m
  | case4 c rest n hpair ih =>
    have htake : ∀ rest', c = '\r' → rest.take (fileOffset rest n) = '\n' :: rest' → False := by
      intro rest' hc heq
      apply hpair (rest' ++ rest.drop (fileOffset rest n)) hc
      rw [← List.cons_append, ← heq, List.take_append_drop]
    rw [unifyNewlines_cons hpair]
    cases m with
    | zero =>
      have hfirst := ih 0
      simp only [fileOffset, List.drop_zero] at hfirst ⊢
      rw [List.take_succ_cons, unifyNewlines_cons htake, hfirst]
      rfl
    | succ m => simpa [fileOffset] using ih m

theorem unifyNewlines_rest (t : Text) (n : Nat) :
    unifyNewlines (t.drop (fileOffset t n)) = (unifyNewlines t).drop n := by
  induction t, n using fileOffset.induct with
  | case1 t => simp [fileOffset]
  | case2 n => simp [fileOffset, unifyNewlines]
  | case3 rest n ih => simpa [fileOffset, unifyNewlines] using ih
  | case4 c rest n hpair ih =>
    rw [unifyNewlines_cons hpair]
    simpa [fileOffset] using ih

end Text

namespace Utf8

theorem encode_inj {s t : Text} : encode s = encode t ↔ s = t := by
  constructor
  · intro h
    have hdecode := decode_encode s
    rw [h, decode_encode] at hdecode
    exact (Except.ok.inj hdecode).symm
  · exact congrArg encode

/-- The number of bytes before the character with number `n` of a text. -/
def byteOffset (t : Text) (n : Nat) : Nat := (encode (t.take n)).length

end Utf8

namespace Edit

/-- What of a file lies outside the spans of edits to its text. -/
def kept (file : Text) (edits : List Edit) : Text :=
  weave file.fileOffset (fun _ => []) file 0 edits

/-- The bytes of a file with the spans of edits to its text exchanged, and all others left alone. -/
def spliced (file : Text) (edits : List Edit) : Bytes :=
  weave (fun n => Utf8.byteOffset file (file.fileOffset n)) Utf8.encode (Utf8.encode file) 0 edits

theorem weave_unifyNewlines {file : Text} {start : Nat} {edits : List Edit}
    (h : '\r' ∉ weave file.fileOffset (fun _ => []) file start edits) :
    weave id id file.unifyNewlines start edits = weave file.fileOffset id file start edits := by
  induction edits generalizing start with
  | nil => 
    rw [weave] at h
    rw [weave, weave, id, ← Text.unifyNewlines_rest, Text.unifyNewlines_of_not_mem h]
  | cons e rest ih =>
    rw [weave, List.append_nil, List.mem_append, not_or] at h
    rw [weave, weave, ih h.2, id, id, ← Text.unifyNewlines_part, Text.unifyNewlines_of_not_mem h.1]

/-- Whatever the edits are made to, they bring the same. -/
theorem count_weave {α : Type} [BEq α] (a : α) (place place' : Nat → Nat) (written : Text → List α)
    (old old' : List α) (start start' : Nat) (edits : List Edit) :
    (weave place written old start edits).count a +
        (weave place' (fun _ => []) old' start' edits).count a =
      (weave place' written old' start' edits).count a +
        (weave place (fun _ => []) old start edits).count a := by
  induction edits generalizing start start' with
  | nil => exact Nat.add_comm _ _
  | cons e rest ih =>
    have hrest := ih e.stop.toNat e.stop.toNat
    simp only [weave, List.count_append, List.count_nil]
    omega

theorem mem_of_mem_weave {α : Type} {a : α} {place : Nat → Nat} {old : List α} {start : Nat}
    {edits : List Edit} (h : a ∈ weave place (fun _ => []) old start edits) : a ∈ old := by
  induction edits generalizing start with
  | nil => exact List.mem_of_mem_drop h
  | cons e rest ih =>
    rw [weave, List.append_nil, List.mem_append] at h
    rcases h with h | h
    · exact List.mem_of_mem_take (List.mem_of_mem_drop h)
    · exact ih h

/-- Edits to the text of a file leave all bytes outside their spans alone exactly where no carriage
return is kept. -/
theorem encode_foldr_eq_spliced_iff {file : Text} {edits : List Edit}
    (h : check file.unifyNewlines.length 0 edits = .ok ()) :
    Utf8.encode (edits.foldr replace file.unifyNewlines) = spliced file edits ↔
      '\r' ∉ kept file edits := by
  have hfold := foldr_replace_eq h (Nat.zero_le _)
  rw [List.take_zero, List.nil_append] at hfold
  have hspliced : spliced file edits = Utf8.encode (weave file.fileOffset id file 0 edits) :=
    weave_flatMap String.utf8EncodeChar file.fileOffset file 0 edits
  rw [hfold, hspliced, Utf8.encode_inj]
  refine ⟨?_, weave_unifyNewlines⟩
  intro heq
  -- A text that was read has no carriage returns, so as many are written as the new texts have.
  have hnone : (weave id (fun _ => []) file.unifyNewlines 0 edits).count '\r' = 0 :=
    List.count_eq_zero.2 fun hmem => Text.not_mem_unifyNewlines file (mem_of_mem_weave hmem)
  have hcount := count_weave '\r' id file.fileOffset id file.unifyNewlines file 0 0 edits
  rw [← heq, hnone] at hcount
  exact List.count_eq_zero.1 (Nat.add_left_cancel hcount)

end Edit

/-- A file that can be read has the bytes of some text. -/
theorem Disk.exists_file_of_readText {d : Disk} {p : Path} {text : Text}
    (h : d.readText p = .ok text) :
    ∃ file : Text, d.readBytes p = .ok (Utf8.encode file) ∧ text = file.unifyNewlines := by
  obtain ⟨bytes, hbytes, htext⟩ := readText_eq_ok_iff.1 h
  rw [textOf] at htext
  cases hd : Utf8.decode bytes with
  | error fault =>
    rw [hd] at htext
    cases htext
  | ok file =>
    rw [hd] at htext
    refine ⟨file, ?_, (Except.ok.inj htext).symm⟩
    rw [hbytes, Utf8.encode_of_decode hd]

namespace Workspace

/-- The plan is stopped by a failing write after a target at the place of a path was written, which
is then put back. -/
def PutsBack (w : Workspace) (plan : Plan) (p : Path) : Prop :=
  (∀ f ∈ plan.files, Sound w.disk f) ∧ ∃ k < plan.files.length,
    (∀ i < k, w.renames + i ∉ w.failing) ∧ w.renames + k ∈ w.failing ∧
      ∃ f ∈ plan.files.take k, f.path.resolve w.disk.cwd = p.resolve w.disk.cwd

/-- The renames that put files back come after the one that failed. -/
theorem not_restoreFails_of_failing_eq {plan : Plan} {w : Workspace} {n : Nat} (h : w.failing = [n]) :
    ¬ RestoreFails w plan := by
  rintro ⟨k, -, -, hfail, ⟨f, m⟩, hr, hbad⟩
  rw [h, List.mem_singleton] at hfail hbad
  have hlater := (List.mk_mem_zipIdx_iff_le_and_getElem?_sub.1 hr).1
  have hm : m = n := hbad
  omega

/-- A file that is put back has the bytes of its text, whatever line ends it had. -/
theorem readBytes_of_putsBack {plan : Plan} {w : Workspace} {p : Path} {file : Text}
    (h : PutsBack w plan p) (hback : ¬ RestoreFails w plan)
    (hfile : w.disk.readBytes p = .ok (Utf8.encode file)) :
    (applyPlan plan w).2.disk.readBytes p = .ok (Utf8.encode file.unifyNewlines) := by
  obtain ⟨hsound, k, hk, hleast, hfail, hplace⟩ := h
  obtain ⟨rendered, hr, hmap, -⟩ := render_of_sound hsound
  have hsound' : ∀ r ∈ rendered, Sound w.disk r.1 :=
    fun r hr => hsound r.1 (hmap ▸ List.mem_map_of_mem hr)
  have hback' : ∀ f n, (f, n) ∈ w.restores (rendered.map Prod.fst) k → n ∉ w.failing :=
    fun f n hn hbad => hback ⟨k, hk, hleast, hfail, (f, n), hmap ▸ hn, hbad⟩
  rw [applyPlan_of_mem hr hmap hk hleast hfail]
  obtain ⟨g, hg, hto, hview⟩ := exists_view_undone hsound' hback' (hmap ▸ hplace)
  obtain ⟨hlocate, hold⟩ := Disk.readBytes_eq_ok_iff.1 hfile
  -- The target's snapshot was read from the bytes that stand at the place.
  obtain ⟨file', hfile', htext⟩ := Disk.exists_file_of_readText hg.1
  have hsame := (Disk.readBytes_eq_ok_iff.1 hfile').2
  rw [hto, hold] at hsame
  obtain rfl : file = file' := Utf8.encode_inj.1 (Option.some.inj (Option.some.inj hsame))
  rw [htext] at hview
  have halike := alike_undone (k := k) hsound'
  refine Disk.readBytes_eq_ok_iff.2 ⟨?_, ?_⟩
  · rw [halike.locate, halike.cwd, hlocate]
  · rw [halike.cwd]
    exact hview

/-- A plan that is not carried out leaves the bytes of files alone that it does not put back. -/
theorem readBytes_of_not_putsBack {plan : Plan} {w : Workspace} {p : Path}
    (hresult : (applyPlan plan w).1 ≠ .ok true) (h : ¬ PutsBack w plan p) :
    (applyPlan plan w).2.disk.readBytes p = w.disk.readBytes p := by
  rcases applyPlan_cases plan w with ⟨result, error, heq, -⟩ | ⟨hsound, rendered, hmap, -, hcase⟩
  · rw [heq]
  · rcases hcase with heq | ⟨k, hk, hleast, hfail, heq⟩
    · rw [heq] at hresult
      exact absurd rfl hresult
    · rw [heq]
      have hsound' : ∀ r ∈ rendered, Sound w.disk r.1 :=
        fun r hr => hsound r.1 (hmap ▸ List.mem_map_of_mem hr)
      apply (alike_undone hsound').readBytes
      apply view_undone_of_forall_ne hsound'
      intro f hf hplace
      exact h ⟨hsound, k, hk, hleast, hfail, f, hmap ▸ hf, hplace⟩

/-- What carrying out a plan does to bytes. A target that no later target shares its file with has the
bytes of its edited text, which are its old bytes outside the spans of its edits exactly where no
carriage return is kept. A plan that fails leaves a file its bytes unless the file has a carriage
return and is put back. -/
theorem applyPlan_bytes (plan : Plan) (w : Workspace) {w' : Workspace} {done : Bool}
    (h : applyPlan plan w = (.ok done, w')) :
    (done = true → ∀ before f after, plan.files = before ++ f :: after →
      (∀ g ∈ after, g.path.resolve w.disk.cwd ≠ f.path.resolve w.disk.cwd) →
      ∃ file bytes, w.disk.readBytes f.path = .ok (Utf8.encode file) ∧
        w'.disk.readBytes f.path = .ok bytes ∧
        bytes = Utf8.encode (f.edits.foldr Edit.replace file.unifyNewlines) ∧
        (bytes = Edit.spliced file f.edits ↔ '\r' ∉ Edit.kept file f.edits)) ∧
    (done = false → ¬ RestoreFails w plan → ∀ p file,
      w.disk.readBytes p = .ok (Utf8.encode file) →
      (w'.disk.readBytes p = w.disk.readBytes p ↔ ('\r' ∈ file → ¬ PutsBack w plan p))) := by
  constructor
  · rintro rfl before f after hplan hlast
    rcases applyPlan_cases plan w with
      ⟨result, error, heq, hne⟩ | ⟨hsound, rendered, hmap, happly, hcase⟩
    · rw [heq] at h
      exact absurd (Prod.mk.inj h).1 hne
    · rcases hcase with heq | ⟨k, -, -, -, heq⟩
      · cases h.symm.trans heq
        rw [hplan] at hmap
        obtain ⟨first, others, rfl, hfirst, hothers⟩ := List.map_eq_append_iff.1 hmap
        obtain ⟨⟨f', text⟩, last, rfl, rfl, hlater⟩ := List.map_eq_cons_iff.1 hothers
        have hf := hsound f' (hplan ▸ List.mem_append_right _ List.mem_cons_self)
        obtain ⟨file, hfile, htext⟩ := Disk.exists_file_of_readText hf.1
        obtain ⟨hcheck, hnew⟩ := FilePlan.apply_eq_ok
          (happly (f', text) (List.mem_append_right _ List.mem_cons_self))
        rw [htext] at hcheck hnew
        have hsound' : ∀ r ∈ first ++ (f', text) :: last, Sound w.disk r.1 := by
          intro r hr
          apply hsound
          rw [hplan, ← hmap]
          exact List.mem_map_of_mem hr
        refine ⟨file, _, hfile, ?_, rfl, Edit.encode_foldr_eq_spliced_iff hcheck⟩
        rw [← hnew]
        have hfiles := isFile_of_mem_writesOf hsound'
        rw [writesOf, List.map_append, List.map_cons] at hfiles ⊢
        apply Disk.readBytes_writeMany_of_last hfiles
        intro write hwrite
        obtain ⟨g, hg, hpath⟩ := mem_writesOf hwrite
        rw [← hpath]
        exact hlast g (hlater ▸ hg)
      · cases h.symm.trans heq
  · rintro rfl hback p file hfile
    have hresult : (applyPlan plan w).1 ≠ .ok true := by
      rw [h]
      exact fun heq => Bool.false_ne_true (Except.ok.inj heq)
    have hstate : w' = (applyPlan plan w).2 := by rw [h]
    rw [hstate]
    by_cases hp : PutsBack w plan p
    · rw [readBytes_of_putsBack hp hback hfile, hfile]
      constructor
      · intro heq hreturn
        have hsame := Utf8.encode_inj.1 (Except.ok.inj heq)
        exact absurd hreturn (hsame ▸ Text.not_mem_unifyNewlines file)
      · intro hfree
        rw [Text.unifyNewlines_of_not_mem fun hreturn => hfree hreturn hp]
    · exact iff_of_true (readBytes_of_not_putsBack hresult hp) fun _ => hp

/-- Of two files with both marks at a line end, one loses its only line end to an edit and keeps all its
other bytes. The other one is put back after a failing write, and would be left alone only without
the carriage return. -/
theorem applyPlan_bytes_of_pairs :
    let joined : FilePlan :=
      { snapshot := ⟨Path.ofText ['a'], "é\nb".toList, none⟩, replacements := [⟨1, 2, [' ']⟩] }
    let other : FilePlan := { snapshot := ⟨Path.ofText ['b'], ['x'], none⟩ }
    let file := "é\r\nb".toList
    let disk := (Disk.empty []).writeMany
      [(joined.path, Utf8.encode file), (other.path, Utf8.encode ['x'])]
    let w : Workspace := { disk }
    let stopped : Workspace := { disk, failing := [1] }
    (applyPlan ⟨[joined]⟩ w).1 = .ok true ∧ '\r' ∉ Edit.kept file joined.edits ∧
      (applyPlan ⟨[joined]⟩ w).2.disk.readBytes joined.path =
        .ok (Edit.spliced file joined.edits) ∧
      (applyPlan ⟨[joined, other]⟩ stopped).1 = .ok false ∧
      PutsBack stopped ⟨[joined, other]⟩ joined.path ∧
      ¬ (applyPlan ⟨[joined, other]⟩ stopped).2.disk.readBytes joined.path =
        disk.readBytes joined.path := by
  intro joined other file disk w stopped
  have hedits : joined.edits = [⟨1, 2, [' ']⟩] := List.mergeSort_singleton _
  have hjoined : joined.apply = .ok "é b".toList :=
    FilePlan.apply_replacement _ (by decide) (by decide) (by decide)
  have hother : other.apply = .ok ['x'] :=
    FilePlan.apply_insertions _ List.Pairwise.nil (by simp)
  have hread : disk.readText joined.path = .ok "é\nb".toList ∧ disk.readText other.path = .ok ['x'] ∧
      disk.readBytes joined.path = .ok (Utf8.encode file) := by decide +kernel
  have hsound : ∀ f ∈ [joined, other], Sound disk f := by
    intro f hf
    simp only [List.mem_cons, List.not_mem_nil, or_false] at hf
    rcases hf with rfl | rfl
    · exact ⟨hread.1, _, hjoined⟩
    · exact ⟨hread.2.1, _, hother⟩
  have hkept : '\r' ∉ Edit.kept file joined.edits := by
    rw [hedits]
    decide
  have hsingle : ∀ f ∈ (⟨[joined]⟩ : Plan).files, Sound w.disk f := fun f hf =>
    hsound f (List.mem_cons.2 (Or.inl (List.mem_singleton.1 hf)))
  have hboth : ∀ f ∈ (⟨[joined, other]⟩ : Plan).files, Sound stopped.disk f := hsound
  obtain ⟨rendered, hr, -, -⟩ := render_of_sound hsingle
  have hdone := applyPlan_of_forall_not_mem hr fun _ _ => List.not_mem_nil
  obtain ⟨hspliced, -⟩ := applyPlan_bytes ⟨[joined]⟩ w hdone
  obtain ⟨file', bytes, hfile', hbytes, -, hiff⟩ := hspliced rfl [] joined [] rfl nofun
  obtain rfl : file' = file := Utf8.encode_inj.1 (Except.ok.inj (hfile'.symm.trans hread.2.2))
  obtain ⟨rendered₂, hr₂, hmap₂, -⟩ := render_of_sound hboth
  have hstopped := applyPlan_of_mem (k := 1) hr₂ hmap₂ (by decide) (by decide) (by decide)
  have hputs : PutsBack stopped ⟨[joined, other]⟩ joined.path :=
    ⟨hsound, 1, by decide, by decide, by decide, joined, List.mem_cons_self, rfl⟩
  have hback : ¬ RestoreFails stopped ⟨[joined, other]⟩ := not_restoreFails_of_failing_eq rfl
  obtain ⟨-, hleft⟩ := applyPlan_bytes ⟨[joined, other]⟩ stopped hstopped
  refine ⟨by rw [hdone], hkept, ?_, by rw [hstopped], hputs, ?_⟩
  · rw [hdone, hbytes, hiff.2 hkept]
  · rw [hstopped]
    intro hsame
    exact (hleft rfl hback joined.path _ hfile').1 hsame (by decide) hputs

/-- An insertion behind a line end exchanges the line end too, and a file that is put back does not get
its old one again, though each target is as it was opened. -/
theorem applyPlan_exchanges_line_ends :
    let target : FilePlan :=
      { snapshot := ⟨Path.ofText ['a'], "a\nb".toList, none⟩, insertions := [⟨3, ['c']⟩] }
    let other : FilePlan :=
      { snapshot := ⟨Path.ofText ['b'], ['x'], none⟩, insertions := [⟨0, ['y']⟩] }
    let file := "a\r\nb".toList
    let disk := (Disk.empty []).writeMany
      [(target.path, Utf8.encode file), (other.path, Utf8.encode ['x'])]
    let w : Workspace := { disk }
    let stopped : Workspace := { disk, failing := [1] }
    w.openFile target.path = .ok target.snapshot ∧ w.openFile other.path = .ok other.snapshot ∧
      (applyPlan ⟨[target]⟩ w).1 = .ok true ∧
      (applyPlan ⟨[target]⟩ w).2.disk.readBytes target.path ≠
        .ok (Edit.spliced file target.edits) ∧
      (applyPlan ⟨[target, other]⟩ stopped).1 = .ok false ∧
      ¬ RestoreFails stopped ⟨[target, other]⟩ ∧
      (applyPlan ⟨[target, other]⟩ stopped).2.disk.readBytes target.path ≠
        disk.readBytes target.path := by
  intro target other file disk w stopped
  have hopen : w.openFile target.path = .ok target.snapshot ∧
      w.openFile other.path = .ok other.snapshot := by decide +kernel
  have htarget : target.apply = .ok "a\nbc".toList :=
    FilePlan.apply_insertions _ (List.pairwise_singleton _ _) (by simp)
  have hother : other.apply = .ok "yx".toList :=
    FilePlan.apply_insertions _ (List.pairwise_singleton _ _) (by simp)
  have hread : disk.readText target.path = .ok "a\nb".toList ∧
      disk.readText other.path = .ok ['x'] := by decide +kernel
  have hone : render w.disk (⟨[target]⟩ : Plan).files = .ok [(target, "a\nbc".toList)] := by
    change render disk [target] = _
    simp only [render, renderFile, hread.1, htarget]
    rfl
  have hboth : render stopped.disk (⟨[target, other]⟩ : Plan).files =
      .ok [(target, "a\nbc".toList), (other, "yx".toList)] := by
    change render disk [target, other] = _
    simp only [render, renderFile, hread.1, hread.2, htarget, hother]
    rfl
  have hdone := applyPlan_of_forall_not_mem hone fun _ _ => List.not_mem_nil
  have hstopped := applyPlan_of_mem (k := 1) hboth rfl (by decide) (by decide) (by decide)
  have hedits : target.edits = [⟨3, 3, ['c']⟩] := List.mergeSort_singleton _
  refine ⟨hopen.1, hopen.2, by rw [hdone], ?_, by rw [hstopped],
    not_restoreFails_of_failing_eq rfl, ?_⟩
  · rw [hdone, hedits]
    decide +kernel
  · rw [hstopped]
    decide +kernel

end Workspace

end PropAccord
