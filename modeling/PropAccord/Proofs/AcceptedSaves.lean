import PropAccord.Proofs.Consent
import PropAccord.Proofs.Documents
import PropAccord.Proofs.KeptTags
import PropAccord.Proofs.LineEnds

/-!
# Saves that are accepted

A workspace is unhindered when every question is accepted, nothing changes behind the back of a save
and no write fails. There each pass ends: it finds its documents as they were read, so it writes what
it planned. A pass over the usages completes the tags of its component in all documents. Every pass
keeps all tags where parameter lists are appended to and not written anew. So at the end of such a
save all components that the saved text defines are complete, whatever passes came after their own.
-/

namespace PropAccord

set_option autoImplicit false

namespace Workspace

/-- Every question is accepted, nothing changes behind the back of the run, and no rename fails. -/
structure Unhindered (w : Workspace) : Prop where
  accepting : ∀ answer ∈ w.answers, answer.reply = .accept ∧ answer.changes = []
  writable : ∀ n, w.renames ≤ n → n ∉ w.failing

namespace Unhindered

variable {w : Workspace} (h : Unhindered w)
include h

theorem choiceFor (prompt : Prompt) : w.choiceFor prompt = some prompt.accept := by
  rw [Workspace.choiceFor]
  cases hanswers : w.answers with
  | nil => rfl
  | cons answer rest =>
    have hreply := (h.accepting answer (hanswers ▸ List.mem_cons_self)).1
    rw [List.head?_cons, Option.getD_some, hreply]
    rfl

theorem disk_answered (prompt : Prompt) : (w.answered prompt).disk = w.disk := by
  have hdisk : (w.answered prompt).disk = w.disk.applyAll (w.answers.head?.getD {}).changes := rfl
  rw [hdisk]
  cases hanswers : w.answers with
  | nil => rfl
  | cons answer rest =>
    have hchanges := (h.accepting answer (hanswers ▸ List.mem_cons_self)).2
    rw [List.head?_cons, Option.getD_some, hchanges]
    rfl

theorem answered (prompt : Prompt) : Unhindered (w.answered prompt) :=
  ⟨fun answer hanswer => h.accepting answer (List.mem_of_mem_drop hanswer), h.writable⟩

/-- A plan whose targets are as they were scanned is asked for and carried out. -/
theorem exists_applied (root : Path) (cwd : List Text) (prompt : Prompt) {plan : Plan}
    (hsound : ∀ f ∈ plan.files, Sound w.disk f) :
    ∃ rendered w₁ w', (host root cwd .scripted).ask prompt w = (.ok (some prompt.accept), w₁) ∧
      (host root cwd .scripted).applyPlan plan w₁ = (.ok true, w') ∧ Unhindered w' ∧
      w'.disk = w.disk.writeMany (writesOf rendered) ∧ rendered.map Prod.fst = plan.files ∧
      ∀ r ∈ rendered, r.1.apply = .ok r.2 := by
  have hask : askScript prompt w = (.ok (some prompt.accept), w.answered prompt) := by
    rw [askScript_eq, h.choiceFor]
  have hdisk := h.disk_answered prompt
  obtain ⟨rendered, hr, hmap, happly⟩ := render_of_sound (hdisk ▸ hsound)
  have hwritable : ∀ n, w.renames ≤ n → n ∉ w.failing := h.writable
  have hdone := applyPlan_of_forall_not_mem (w := w.answered prompt) hr
    fun i _ => hwritable _ (Nat.le_add_right _ i)
  refine ⟨rendered, _, _, hask, hdone, ⟨(h.answered prompt).accepting, ?_⟩, ?_, hmap, happly⟩
  · intro n hn
    exact hwritable n (Nat.le_trans (Nat.le_add_right _ _) hn)
  · rw [← hdisk]

end Unhindered

end Workspace

namespace Sync

open Workspace (Unhindered Sound Changed)

/-! ## What is planned -/

/-- Where no tag lacks a prop, a text is completed as it is. -/
theorem completed_of_complete (placeholder : Text) {name : Text} (hname : isComponentName name = true)
    {props : List Text} {s : Snapshot} (h : Complete name props s.text) :
    Completed placeholder name props s.text s.text := by
  obtain ⟨text, happly, hcompleted⟩ := exists_apply_tagPlan hname placeholder props s
  have hplan : tagPlan placeholder name props s = { snapshot := s, insertions := [] } :=
    congrArg (FilePlan.mk s · []) ((tagInsertions_eq_nil_iff placeholder).2 h)
  have hsame : (tagPlan placeholder name props s).apply = .ok s.text := by
    rw [hplan]
    exact FilePlan.apply_insertions s .nil (by simp)
  obtain rfl := Except.ok.inj (happly.symm.trans hsame)
  exact hcompleted

theorem length_replace_edit (i : Insertion) (t : Text) :
    (Edit.replace i.edit t).length = t.length + i.text.length := by
  simp only [Edit.replace, Insertion.edit, List.length_append, List.length_take, List.length_drop]
  omega

theorem length_lt_foldr_replace {insertions : List Insertion} (hne : insertions ≠ [])
    (htexts : ∀ i ∈ insertions, i.text ≠ []) (t : Text) :
    t.length < ((insertions.map Insertion.edit).foldr Edit.replace t).length := by
  induction insertions with
  | nil => exact absurd rfl hne
  | cons i rest ih =>
    have hpositive := List.length_pos_of_ne_nil (htexts i List.mem_cons_self)
    rw [List.map_cons, List.foldr_cons, length_replace_edit]
    cases rest with
    | nil =>
      simp only [List.map_nil, List.foldr_nil]
      omega
    | cons j rest =>
      have hlonger := ih (List.cons_ne_nil j rest) fun k hk => htexts k (List.mem_cons_of_mem i hk)
      omega

/-- Where something is planned for a document, it becomes longer. -/
theorem length_lt_of_tagPlan {placeholder name : Text} {props : List Text} {s : Snapshot} {text : Text}
    (hne : (tagPlan placeholder name props s).insertions ≠ [])
    (happly : (tagPlan placeholder name props s).apply = .ok text) : s.text.length < text.length := by
  obtain ⟨hbounds, hordered⟩ := tagInsertions_ordered (.exactly name) placeholder props s.text
  have hfold := FilePlan.apply_insertions s (hordered.imp Int.le_of_lt) hbounds
  obtain rfl := Except.ok.inj (hfold.symm.trans happly)
  refine length_lt_foldr_replace hne (fun i hi => ?_) s.text
  obtain ⟨tag, -, hinsertion⟩ := List.mem_filterMap.1 hi
  rw [tagInsertion?] at hinsertion
  split at hinsertion
  · cases hinsertion
  · rename_i hmissing
    obtain rfl := Option.some.inj hinsertion
    cases hprops : tag.missing props with
    | nil => exact absurd (by rw [hprops]; rfl) hmissing
    | cons prop rest => exact List.cons_ne_nil _ _

/-- What is planned for the tags of a component in all documents. -/
def usagesPlan (placeholder name : Text) (props : List Text) (snapshots : List Snapshot) : Plan :=
  ⟨(snapshots.map (tagPlan placeholder name props)).filter fun f => !f.insertions.isEmpty⟩

section

variable {placeholder name : Text} {props : List Text} {snapshots : List Snapshot}

theorem mem_usagesPlan_iff {f : FilePlan} :
    f ∈ (usagesPlan placeholder name props snapshots).files ↔
      ∃ s ∈ snapshots, f = tagPlan placeholder name props s ∧ f.insertions ≠ [] := by
  simp only [usagesPlan, List.mem_filter, List.mem_map, Bool.not_eq_true', List.isEmpty_eq_false_iff]
  constructor
  · rintro ⟨⟨s, hs, rfl⟩, hne⟩
    exact ⟨s, hs, rfl, hne⟩
  · rintro ⟨s, hs, rfl, hne⟩
    exact ⟨⟨s, hs, rfl⟩, hne⟩

theorem isEmpty_usagesPlan_iff :
    (usagesPlan placeholder name props snapshots).isEmpty = true ↔
      ∀ s ∈ snapshots, (tagPlan placeholder name props s).insertions = [] := by
  rw [Plan.isEmpty, List.all_eq_true]
  constructor
  · intro h s hs
    by_contra hne
    have hempty := h _ (mem_usagesPlan_iff.2 ⟨s, hs, rfl, hne⟩)
    rw [FilePlan.isEmpty, Bool.and_eq_true, List.isEmpty_iff] at hempty
    exact hne hempty.1
  · intro h f hf
    obtain ⟨s, hs, rfl, hne⟩ := mem_usagesPlan_iff.1 hf
    exact absurd (h s hs) hne

theorem isEmpty_usagesPlan_iff_complete :
    (usagesPlan placeholder name props snapshots).isEmpty = true ↔
      ∀ s ∈ snapshots, Complete name props s.text :=
  isEmpty_usagesPlan_iff.trans (forall₂_congr fun _ _ => tagInsertions_eq_nil_iff placeholder)

theorem sound_of_mem_usagesPlan (hname : isComponentName name = true) {d : Disk}
    (hread : ∀ s ∈ snapshots, d.readText s.path = .ok s.text) :
    ∀ f ∈ (usagesPlan placeholder name props snapshots).files, Sound d f := by
  intro f hf
  obtain ⟨s, hs, rfl, -⟩ := mem_usagesPlan_iff.1 hf
  obtain ⟨text, happly, -⟩ := exists_apply_tagPlan hname placeholder props s
  exact ⟨hread s hs, text, happly⟩

/-- What is written when the plan for the tags is carried out, and what is read back. -/
theorem exists_of_mem_writesOf (hname : isComponentName name = true)
    (hprops : ∀ prop ∈ props, '\r' ∉ prop) {d : Disk}
    (hread : ∀ s ∈ snapshots, d.readText s.path = .ok s.text) {rendered : List (FilePlan × Text)}
    (hmap : rendered.map Prod.fst = (usagesPlan placeholder name props snapshots).files)
    (happly : ∀ r ∈ rendered, r.1.apply = .ok r.2) :
    ∀ write ∈ Workspace.writesOf rendered, ∃ s ∈ snapshots, ∃ file : Text,
      write = (s.path, Utf8.encode file) ∧ ('\r' ∉ placeholder → '\r' ∉ file) ∧
        Completed placeholder.unifyNewlines name props s.text file.unifyNewlines ∧
        s.text.length < file.unifyNewlines.length := by
  intro write hwrite
  obtain ⟨r, hr, rfl⟩ := List.mem_map.1 hwrite
  obtain ⟨s, hs, hplan, hne⟩ := mem_usagesPlan_iff.1 (hmap ▸ List.mem_map_of_mem hr)
  obtain ⟨text, htext, hcompleted⟩ := exists_apply_tagPlan hname placeholder props s
  obtain rfl : text = r.2 := by
    have hr' := happly r hr
    rw [hplan, htext] at hr'
    exact Except.ok.inj hr'
  have hfree := Disk.not_mem_of_readText (hread s hs)
  have hback := hcompleted.unifyNewlines hprops hfree
  -- The same is planned with the placeholder as it is read, so what is read back is longer, too.
  obtain ⟨text', htext', hcompleted'⟩ := exists_apply_tagPlan hname placeholder.unifyNewlines props s
  obtain rfl := hcompleted'.unique hback
  have hne' : (tagPlan placeholder.unifyNewlines name props s).insertions ≠ [] := fun hnil =>
    (hplan ▸ hne) ((tagInsertions_eq_nil_iff _).2 ((tagInsertions_eq_nil_iff _).1 hnil))
  refine ⟨s, hs, r.2, by rw [hplan]; rfl, fun hplaceholder => ?_, hback,
    length_lt_of_tagPlan hne' htext'⟩
  exact hcompleted.not_mem hplaceholder hprops (by decide) (by decide) hfree

theorem completed_of_mem_writesOf (hname : isComponentName name = true)
    (hprops : ∀ prop ∈ props, '\r' ∉ prop) {d : Disk}
    (hread : ∀ s ∈ snapshots, d.readText s.path = .ok s.text) {rendered : List (FilePlan × Text)}
    (hmap : rendered.map Prod.fst = (usagesPlan placeholder name props snapshots).files)
    (happly : ∀ r ∈ rendered, r.1.apply = .ok r.2) :
    ∀ write ∈ Workspace.writesOf rendered, ∃ old new : Text,
      d.readText write.1 = .ok old ∧ Disk.textOf write.2 = .ok new ∧
        Completed placeholder.unifyNewlines name props old new := by
  intro write hwrite
  obtain ⟨s, hs, file, rfl, -, hcompleted, -⟩ :=
    exists_of_mem_writesOf hname hprops hread hmap happly write hwrite
  exact ⟨s.text, _, hread s hs, Disk.textOf_encode_eq file, hcompleted⟩

theorem lengthened_of_writesOf (hname : isComponentName name = true)
    (hprops : ∀ prop ∈ props, '\r' ∉ prop) {d : Disk}
    (hread : ∀ s ∈ snapshots, d.readText s.path = .ok s.text) {rendered : List (FilePlan × Text)}
    (hmap : rendered.map Prod.fst = (usagesPlan placeholder name props snapshots).files)
    (happly : ∀ r ∈ rendered, r.1.apply = .ok r.2) :
    d.Lengthened (fun file => '\r' ∉ placeholder → '\r' ∉ file)
      (snapshots.map fun s => s.path.resolve d.cwd) (d.writeMany (Workspace.writesOf rendered)) := by
  have hwrites := exists_of_mem_writesOf hname hprops hread hmap happly
  apply Disk.lengthened_writeMany
  · intro write hwrite
    obtain ⟨s, hs, file, rfl, -⟩ := hwrites write hwrite
    exact List.mem_map_of_mem hs
  · intro write hwrite
    obtain ⟨s, hs, file, rfl, hfree, -, hlength⟩ := hwrites write hwrite
    exact ⟨s.text, file, hread s hs, rfl, hfree, hlength⟩

/-- A document that is not written has no plan. -/
theorem completed_of_not_written (hname : isComponentName name = true)
    {rendered : List (FilePlan × Text)}
    (hmap : rendered.map Prod.fst = (usagesPlan placeholder name props snapshots).files)
    {s : Snapshot} (hs : s ∈ snapshots) {cwd : List Text}
    (hne : ∀ write ∈ Workspace.writesOf rendered, write.1.resolve cwd ≠ s.path.resolve cwd)
    (placeholder' : Text) : Completed placeholder' name props s.text s.text := by
  apply completed_of_complete placeholder' hname
  by_contra hinsertions
  have hmem := mem_usagesPlan_iff.2 ⟨s, hs, rfl, hinsertions ∘ (tagInsertions_eq_nil_iff placeholder).1⟩
  rw [← hmap] at hmem
  obtain ⟨r, hr, hplan⟩ := List.mem_map.1 hmem
  refine hne _ (List.mem_map_of_mem hr) ?_
  rw [hplan]
  rfl

end

/-! ## Documents whose tags are kept -/

theorem changed_refl (snapshots : List Snapshot) : Changed TagsKept snapshots snapshots :=
  List.forall₂_same.2 fun s _ => ⟨rfl, TagsKept.refl s.text⟩

theorem changed_trans {l₁ l₂ l₃ : List Snapshot} (h : Changed TagsKept l₁ l₂)
    (h' : Changed TagsKept l₂ l₃) : Changed TagsKept l₁ l₃ :=
  forall₂_trans (fun _ _ _ hab hbc => ⟨hbc.1.trans hab.1, hab.2.trans hbc.2⟩) h h'

theorem changed_of_completed {placeholder name : Text} {props : List Text}
    (hplaceholder : ∀ c ∈ placeholder, c ≠ '<' ∧ c ≠ '>')
    (hprops : ∀ prop ∈ props, isIdentifier prop = true) {l l' : List Snapshot}
    (h : Changed (Completed placeholder.unifyNewlines name props) l l') : Changed TagsKept l l' :=
  h.imp fun _ _ hs => ⟨hs.1, hs.2.tagsKept (unifyNewlines_unbracketed hplaceholder) hprops⟩

theorem complete_of_changed {name : Text} (hname : isComponentName name = true) {props : List Text}
    {l l' : List Snapshot} (h : ∀ s ∈ l, Complete name props s.text) (hkept : Changed TagsKept l l') :
    ∀ s ∈ l', Complete name props s.text := by
  intro s' hs'
  obtain ⟨s, hs, -, htags⟩ := exists_of_forall₂_of_mem hkept hs'
  exact (h s hs).kept hname htags

/-! ## Widened documents -/

/-- The props that a pass hands on to the tags of its component once it has widened the definition:
those that the definition had and those that were added. -/
def Pass.handedOn (p : Pass) : List Text :=
  if p.direction = .usageToDefinition ∧ p.status = .applied then
    p.plan.files.flatMap fun f =>
      match Definition.find? f.snapshot.text p.component with
      | some d => Props.merge d.props p.added
      | none => []
  else []

/-- The lists of props that a save hands on to tags: those of the definitions in the saved text, and
those of the definitions that were widened. -/
def Outcome.handedOn (o : Outcome) (text : Text) : List (List Text) :=
  (Engine.firstOfEach [] (Definition.scanAll text)).map Definition.props ++ o.passes.map Pass.handedOn

theorem handedOn_widening {mode : WidenMode} {name : Text} {s : Snapshot} {d : Definition}
    (hd : Definition.find? s.text name = some d) {used : List Text}
    (hnew : ∃ prop ∈ used, prop ∉ d.props) :
    Pass.handedOn
        { component := name, direction := .usageToDefinition, status := .applied,
          plan := (widening mode s d used).plan, added := (widening mode s d used).added } =
      (widening mode s d used).merged := by
  rw [widening_eq_of_exists mode s hnew, Pass.handedOn, if_pos ⟨rfl, rfl⟩, List.flatMap_singleton, hd]
  exact Props.merge_added d.props used

section

variable {name : Text} (hname : isComponentName name = true)
include hname

theorem apply_widenedRaw (mode : WidenMode) {s : Snapshot} {d : Definition}
    (hd : Definition.find? s.text name = some d) (used : List Text) :
    FilePlan.apply { snapshot := s, replacements := [⟨d.start, d.stop, widenedRaw mode d used⟩] } =
      .ok (Edit.replace ⟨d.start, d.stop, widenedRaw mode d used⟩ s.text) := by
  have hopen : '{' ∉ name := not_mem_of_isComponentName hname (by decide)
  obtain ⟨before, head, closed, htext, hstands⟩ := (Definition.find?_eq_some_iff hopen).1 hd
  apply FilePlan.apply_replacement
  · exact Int.natCast_nonneg d.start
  · exact Int.ofNat_le.2 (Nat.le_add_right d.start d.raw.length)
  · rw [htext]
    exact Int.ofNat_le.2 (stop_le_length_of_stands hstands)

theorem mem_of_mem_raw {t : Text} {d : Definition} (hd : Definition.find? t name = some d) {c : Char}
    (hc : c ∈ d.raw) : c ∈ t := by
  have hopen : '{' ∉ name := not_mem_of_isComponentName hname (by decide)
  obtain ⟨before, head, closed, rfl, -⟩ := (Definition.find?_eq_some_iff hopen).1 hd
  simp [Definition.around, hc]

theorem not_mem_replace_widenedRaw {t : Text} {d : Definition}
    (hd : Definition.find? t name = some d) {used : List Text}
    (hused : ∀ prop ∈ used, isIdentifier prop = true) (ht : '\r' ∉ t) (mode : WidenMode) :
    '\r' ∉ Edit.replace ⟨d.start, d.stop, widenedRaw mode d used⟩ t := by
  have hraw : '\r' ∉ widenedRaw mode d used :=
    not_mem_widenedRaw (by decide) (by decide) (by decide)
      (fun hc => ht (mem_of_mem_raw hname hd hc)) hused
  rw [Edit.replace]
  exact List.not_mem_append (List.not_mem_append (fun hc => ht (List.mem_of_mem_take hc)) hraw)
    fun hc => ht (List.mem_of_mem_drop hc)

end

namespace Engine

/-- Synchronisation of files on disk, with scripted answers and the built-in scanner. -/
abbrev onDisk (root : Path) (cwd : List Text) (settings : Settings) : Engine Workspace :=
  { host := Workspace.host root cwd .scripted, settings }

/-- Where passes lead that nothing hinders: the documents can be opened, and what could be read can
still be read. -/
structure Reached (e : Engine Workspace) (w w' : Workspace) (snapshots' : List Snapshot) : Prop where
  unhindered : Unhindered w'
  opened : e.snapshots w' = .ok snapshots'
  readable : ∀ path text, w.disk.readText path = .ok text →
    ∃ text', w'.disk.readText path = .ok text'

theorem Reached.refl {e : Engine Workspace} {w : Workspace} {snapshots : List Snapshot}
    (h : Unhindered w) (hsnapshots : e.snapshots w = .ok snapshots) : Reached e w w snapshots :=
  ⟨h, hsnapshots, fun _ text htext => ⟨text, htext⟩⟩

theorem Reached.trans {e : Engine Workspace} {w w₁ w' : Workspace}
    {snapshots₁ snapshots' : List Snapshot} (h : Reached e w w₁ snapshots₁)
    (h' : Reached e w₁ w' snapshots') : Reached e w w' snapshots' := by
  refine ⟨h'.unhindered, h'.opened, ?_⟩
  intro path text htext
  obtain ⟨text₁, htext₁⟩ := h.readable path text htext
  exact h'.readable path text₁ htext₁

/-- The definition of the component, if it is found, has the props of the usage. -/
def Knows {σ : Type} (e : Engine σ) (s : σ) (usage : Usage) : Prop :=
  ∀ l, e.locate usage.component s = .ok (some l) → ∀ prop ∈ usage.props, prop ∈ l.definition.props

/-- What a pass over the usages of a component comes to where nothing hinders it. The documents are
completed with the placeholder as it is read back, with line feeds for all its line ends. -/
structure Pushed (e : Engine Workspace) (name : Text) (props : List Text) (w : Workspace)
    (snapshots : List Snapshot) (pass : Pass) (w' : Workspace) (snapshots' : List Snapshot) :
    Prop where
  run : e.syncUsages name props w = (.ok pass, w')
  unhindered : Unhindered w'
  opened : e.snapshots w' = .ok snapshots'
  completed : Changed (Completed e.settings.placeholder.unifyNewlines name props) snapshots snapshots'
  idle : ¬ pass.asks ↔ ∀ s ∈ snapshots, Complete name props s.text
  texts : ∀ path text, w.disk.readText path = .ok text → ∃ text',
    w'.disk.readText path = .ok text' ∧
      (text' = text ∨ Completed e.settings.placeholder.unifyNewlines name props text text')
  lengthened : w.disk.Lengthened (fun file => '\r' ∉ e.settings.placeholder → '\r' ∉ file)
    (snapshots.map fun s => s.path.resolve w.disk.cwd) w'.disk

theorem Pushed.reached {e : Engine Workspace} {name : Text} {props : List Text}
    {w w' : Workspace} {snapshots snapshots' : List Snapshot} {pass : Pass}
    (h : Pushed e name props w snapshots pass w' snapshots') : Reached e w w' snapshots' := by
  refine ⟨h.unhindered, h.opened, ?_⟩
  intro path text htext
  obtain ⟨text', htext', -⟩ := h.texts path text htext
  exact ⟨text', htext'⟩

section

variable {root : Path} {cwd : List Text} {settings : Settings} {w : Workspace}
  {snapshots : List Snapshot} (hsnapshots : (onDisk root cwd settings).snapshots w = .ok snapshots)
include hsnapshots

theorem planUsages_onDisk (name : Text) (props : List Text) :
    (onDisk root cwd settings).planUsages name props w =
      .ok (usagesPlan settings.placeholder name props snapshots) := by
  rw [planUsages, hsnapshots]
  change (do return ⟨← planFiles _ name props snapshots⟩ : Except Halt Plan) = _
  rw [planFiles_standard]
  rfl

omit hsnapshots in
theorem pushEach_cons {d : Definition} {rest : List Definition} {w₁ w' : Workspace} {pass : Pass}
    {others : List Pass}
    (hrun : (onDisk root cwd settings).syncUsages d.name d.props w = (.ok pass, w₁))
    (hrest : (onDisk root cwd settings).pushEach rest w₁ = (.ok others, w')) :
    (onDisk root cwd settings).pushEach (d :: rest) w = (.ok (pass :: others), w') := by
  rw [pushEach, run_bind_of_ok hrun, run_bind_of_ok hrest]
  rfl

theorem syncUsages_of_isEmpty {name : Text} {props : List Text}
    (hempty : (usagesPlan settings.placeholder name props snapshots).isEmpty = true) :
    (onDisk root cwd settings).syncUsages name props w =
      (.ok { component := name, direction := .definitionToUsages, status := .noChanges }, w) := by
  unfold syncUsages
  rw [run_bind_of_ok (tryRead_eq (planUsages_onDisk hsnapshots name props))]
  simp only [hempty, if_true]
  rfl

/-- In an unhindered workspace a pass over the usages of a component completes all documents. -/
theorem exists_pushed (h : Unhindered w) {name : Text} (hname : isComponentName name = true)
    {props : List Text} (hprops : ∀ prop ∈ props, '\r' ∉ prop) :
    ∃ pass w' snapshots',
      Pushed (onDisk root cwd settings) name props w snapshots pass w' snapshots' := by
  by_cases hempty : (usagesPlan settings.placeholder name props snapshots).isEmpty = true
  · refine ⟨_, w, snapshots, syncUsages_of_isEmpty hsnapshots hempty, h, hsnapshots, ?_, ?_, ?_,
      .refl w.disk⟩
    · apply List.forall₂_same.2
      intro s hs
      exact ⟨rfl, completed_of_complete _ hname (isEmpty_usagesPlan_iff_complete.1 hempty s hs)⟩
    · exact iff_of_true (by simp [Pass.asks]) (isEmpty_usagesPlan_iff_complete.1 hempty)
    · exact fun _ text htext => ⟨text, htext, Or.inl rfl⟩
  · have hread := Workspace.readText_of_mem_snapshots hsnapshots
    have hsound : ∀ f ∈ (usagesPlan settings.placeholder name props snapshots).files,
        Sound w.disk f := sound_of_mem_usagesPlan hname hread
    obtain ⟨rendered, w₀, w₁, hask, hdone, h₁, hdisk, hmap, happly⟩ :=
      h.exists_applied root cwd (usagesPrompt name) hsound
    let w₂ : Workspace := { w₁ with notes := w₁.notes ++ [syncedMessage name] }
    have hrun : (onDisk root cwd settings).syncUsages name props w =
        (.ok { component := name, direction := .definitionToUsages, status := .applied,
               plan := usagesPlan settings.placeholder name props snapshots }, w₂) := by
      unfold syncUsages
      rw [run_bind_of_ok (tryRead_eq (planUsages_onDisk hsnapshots name props))]
      simp only [hempty]
      have haccept : ¬ some (usagesPrompt name).accept ≠ some acceptUsages := not_not_intro rfl
      rw [if_neg Bool.false_ne_true, run_bind_of_ok hask, if_neg haccept, run_bind_of_ok hdone]
      rfl
    have hwrites := completed_of_mem_writesOf hname hprops hread hmap happly
    have hdisk₂ : w₂.disk = w.disk.writeMany (Workspace.writesOf rendered) := hdisk
    obtain ⟨snapshots', hsnapshots', hchanged⟩ :=
      Workspace.exists_snapshots_of_writes hdisk₂ hwrites hsnapshots
        fun s hs hne => completed_of_not_written hname hmap hs hne _
    refine ⟨_, w₂, snapshots', hrun, ⟨h₁.accepting, h₁.writable⟩, hsnapshots', hchanged,
      iff_of_false (fun hidle => hidle (Or.inr (Or.inl rfl)))
        (hempty ∘ isEmpty_usagesPlan_iff_complete.2), ?_,
      hdisk₂ ▸ lengthened_of_writesOf hname hprops hread hmap happly⟩
    intro path text htext
    rw [hdisk₂]
    rcases Disk.readText_writeMany_of_ok hwrites htext with ⟨new, hnew, hcompleted⟩ | ⟨-, hsame⟩
    · exact ⟨new, hnew, Or.inr hcompleted⟩
    · exact ⟨text, hsame, Or.inl rfl⟩

/-- A definition is looked up in the documents, in their order. -/
theorem exists_locate (name : Text) :
    ∃ located, (onDisk root cwd settings).locate name w = .ok located ∧
      ∀ l ∈ located, l.snapshot ∈ snapshots ∧
        Definition.find? l.snapshot.text name = some l.definition := by
  have hlocate : (onDisk root cwd settings).locate name w =
      (onDisk root cwd settings).locateIn name snapshots := by
    rw [locate, hsnapshots]
    rfl
  rw [hlocate]
  clear hlocate hsnapshots
  induction snapshots with
  | nil =>
    refine ⟨none, rfl, fun l hl => ?_⟩
    cases hl
  | cons s rest ih =>
    rw [locateIn, scannerFor_standard]
    cases hfind : Definition.find? s.text name with
    | some d =>
      refine ⟨some ⟨s, d⟩, ?_, ?_⟩
      · change (match Definition.find? s.text name with
          | some definition => _
          | none => _) = _
        rw [hfind]
        rfl
      · rintro l ⟨⟩
        exact ⟨List.mem_cons_self, hfind⟩
    | none =>
      obtain ⟨located, hlocated, hmem⟩ := ih
      refine ⟨located, ?_, fun l hl => ⟨List.mem_cons_of_mem s (hmem l hl).1, (hmem l hl).2⟩⟩
      change (match Definition.find? s.text name with
        | some definition => _
        | none => _) = _
      rw [hfind]
      exact hlocated

/-- A definition that is found is widened by the props of a usage. -/
theorem exists_widened (h : Unhindered w) {name : Text} (hname : isComponentName name = true)
    {s : Snapshot} (hs : s ∈ snapshots) {d : Definition}
    (hd : Definition.find? s.text name = some d) {used : List Text}
    (hused : ∀ prop ∈ used, isIdentifier prop = true) (hnew : ∃ prop ∈ used, prop ∉ d.props)
    (mode : WidenMode) (prompt : Prompt) {R : Text → Text → Prop} (hrefl : ∀ t, R t t)
    (hR : R s.text (Edit.replace ⟨d.start, d.stop, widenedRaw mode d used⟩ s.text)) :
    ∃ w₁ w' snapshots',
      (Workspace.host root cwd .scripted).ask prompt w = (.ok (some prompt.accept), w₁) ∧
      (Workspace.host root cwd .scripted).applyPlan (widening mode s d used).plan w₁ =
        (.ok true, w') ∧
      Reached (onDisk root cwd settings) w w' snapshots' ∧ Changed R snapshots snapshots' := by
  let f : FilePlan :=
    { snapshot := s, replacements := [⟨d.start, d.stop, widenedRaw mode d used⟩] }
  have hread : w.disk.readText s.path = .ok s.text :=
    Workspace.readText_of_mem_snapshots hsnapshots s hs
  have happly : f.apply = .ok (Edit.replace ⟨d.start, d.stop, widenedRaw mode d used⟩ s.text) :=
    apply_widenedRaw hname mode hd used
  have hplan : (widening mode s d used).plan = ⟨[f]⟩ :=
    congrArg Widening.plan (widening_eq_of_exists mode s hnew)
  have hsound : ∀ f' ∈ (⟨[f]⟩ : Plan).files, Sound w.disk f' := by
    intro f' hf'
    rw [List.mem_singleton.1 hf']
    exact ⟨hread, _, happly⟩
  obtain ⟨rendered, w₁, w', hask, hdone, h', hdisk, hmap, hrendered⟩ :=
    h.exists_applied root cwd prompt hsound
  have hwrites : ∀ write ∈ Workspace.writesOf rendered, ∃ old new : Text,
      w.disk.readText write.1 = .ok old ∧ Disk.textOf write.2 = .ok new ∧ R old new := by
    intro write hwrite
    obtain ⟨r, hr, rfl⟩ := List.mem_map.1 hwrite
    have hr₁ : r.1 = f := by
      have hmem : r.1 ∈ rendered.map Prod.fst := List.mem_map_of_mem hr
      rw [hmap] at hmem
      exact List.mem_singleton.1 hmem
    have hr₂ := hrendered r hr
    rw [hr₁, happly] at hr₂
    refine ⟨s.text, r.2, ?_, Disk.textOf_encode ?_, ?_⟩
    · rw [hr₁]
      exact hread
    · rw [← Except.ok.inj hr₂]
      exact not_mem_replace_widenedRaw hname hd hused (Disk.not_mem_of_readText hread) mode
    · rw [← Except.ok.inj hr₂]
      exact hR
  obtain ⟨snapshots', hsnapshots', hchanged⟩ :=
    Workspace.exists_snapshots_of_writes hdisk hwrites hsnapshots fun s' _ _ => hrefl s'.text
  refine ⟨w₁, w', snapshots', hask, hplan ▸ hdone, ⟨h', hsnapshots', ?_⟩, hchanged⟩
  intro path text htext
  rw [hdisk]
  rcases Disk.readText_writeMany_of_ok hwrites htext with ⟨new, hnew', -⟩ | ⟨-, hsame⟩
  · exact ⟨new, hnew'⟩
  · exact ⟨text, hsame⟩

end

/-! ## Whole saves -/

section

variable {root : Path} {cwd : List Text} {settings : Settings} {w : Workspace}
  {snapshots : List Snapshot} (hsnapshots : (onDisk root cwd settings).snapshots w = .ok snapshots)
  (h : Unhindered w)
include hsnapshots h

omit h in
theorem not_mem_merged_of_isIdentifier {name : Text} (hname : isComponentName name = true)
    {s : Snapshot} (hs : s ∈ snapshots) {d : Definition}
    (hd : Definition.find? s.text name = some d) {used : List Text}
    (hused : ∀ prop ∈ used, isIdentifier prop = true) (hnew : ∃ prop ∈ used, prop ∉ d.props)
    (mode : WidenMode) : ∀ prop ∈ (widening mode s d used).merged, '\r' ∉ prop := by
  intro prop hprop hc
  rw [widening_eq_of_exists mode s hnew] at hprop
  rcases Props.mem_merge_iff.1 hprop with hold | hprop
  · exact Disk.not_mem_of_readText (Workspace.readText_of_mem_snapshots hsnapshots s hs)
      (mem_of_mem_raw hname hd (Props.mem_of_mem_namesIn hold hc))
  · exact not_mem_of_isIdentifier (hused prop hprop) (by decide) hc

/-- Where a usage has a prop that the definition lacks, the definition is widened and the usages are
completed. -/
theorem exists_syncDefinition_of_new {usage : Usage}
    (hname : isComponentName usage.component = true)
    (hprops : ∀ prop ∈ usage.props, isIdentifier prop = true) {s : Snapshot} {d : Definition}
    (hlocate : (onDisk root cwd settings).locate usage.component w = .ok (some ⟨s, d⟩))
    (hs : s ∈ snapshots) (hd : Definition.find? s.text usage.component = some d)
    (hnew : ∃ prop ∈ usage.props, prop ∉ d.props) :
    ∃ pass pushed w' snapshots',
      (onDisk root cwd settings).syncDefinition usage w = (.ok [pass, pushed], w') ∧ pass.asks ∧
      Reached (onDisk root cwd settings) w w' snapshots' ∧
      (settings.widenMode = .append →
        (∀ c ∈ settings.placeholder, c ≠ '<' ∧ c ≠ '>') →
        (∀ prop ∈ pass.handedOn, isIdentifier prop = true) →
        Changed TagsKept snapshots snapshots') := by
  have hkept : settings.widenMode = .append → TagsKept s.text
      (Edit.replace ⟨d.start, d.stop, widenedRaw settings.widenMode d usage.props⟩ s.text) := by
    intro hmode
    rw [hmode]
    exact tagsKept_widened hname hd hprops
  obtain ⟨w₁, w₂, snapshots₂, hask, hdone, hreached, hwidened⟩ :=
    exists_widened hsnapshots h hname hs hd hprops hnew settings.widenMode
      (definitionPrompt usage.component (widening settings.widenMode s d usage.props).added)
      (R := fun t t' => settings.widenMode = .append → TagsKept t t')
      (fun t _ => TagsKept.refl t) hkept
  obtain ⟨pushed, w', snapshots', hpushed⟩ := exists_pushed hreached.opened hreached.unhindered hname
    (not_mem_merged_of_isIdentifier hsnapshots hname hs hd hprops hnew settings.widenMode)
  let pass : Pass :=
    { component := usage.component, direction := .usageToDefinition, status := .applied,
      plan := (widening settings.widenMode s d usage.props).plan,
      added := (widening settings.widenMode s d usage.props).added }
  refine ⟨pass, pushed, w', snapshots', ?_, Or.inr (Or.inl rfl), hreached.trans hpushed.reached,
    fun hmode hplaceholder hhanded => ?_⟩
  · have hadded : (widening settings.widenMode s d usage.props).added.isEmpty = false := by
      rw [widening_eq_of_exists settings.widenMode s hnew]
      exact isEmpty_added hnew
    have haccept (added : List Text) :
        ¬ some (definitionPrompt usage.component added).accept ≠ some acceptDefinition :=
      not_not_intro rfl
    unfold syncDefinition
    rw [run_bind_of_ok (tryRead_eq hlocate)]
    simp only [hadded]
    rw [if_neg Bool.false_ne_true, run_bind_of_ok hask, if_neg (haccept _),
      run_bind_of_ok hdone, if_pos rfl, run_bind_of_ok hpushed.run]
    rfl
  · rw [handedOn_widening hd hnew] at hhanded
    exact changed_trans (hwidened.imp fun _ _ hs => ⟨hs.1, hs.2 hmode⟩)
      (changed_of_completed hplaceholder hhanded hpushed.completed)

/-- The passes for a usage end. They ask nothing exactly if the definition has the props of the usage,
and they keep all tags if names are appended and the props that are handed on are identifiers. -/
theorem exists_syncDefinition {usage : Usage}
    (hname : isComponentName usage.component = true)
    (hprops : ∀ prop ∈ usage.props, isIdentifier prop = true) :
    ∃ passes w' snapshots', (onDisk root cwd settings).syncDefinition usage w = (.ok passes, w') ∧
      Reached (onDisk root cwd settings) w w' snapshots' ∧
      ((∀ p ∈ passes, ¬ p.asks) ↔ (onDisk root cwd settings).Knows w usage) ∧
      (settings.widenMode = .append →
        (∀ c ∈ settings.placeholder, c ≠ '<' ∧ c ≠ '>') →
        (∀ p ∈ passes, ∀ prop ∈ p.handedOn, isIdentifier prop = true) →
        Changed TagsKept snapshots snapshots') := by
  obtain ⟨located, hlocate, hmem⟩ := exists_locate hsnapshots usage.component
  have hstays := Reached.refl h hsnapshots
  cases located with
  | none =>
    unfold syncDefinition
    rw [run_bind_of_ok (tryRead_eq hlocate)]
    refine ⟨_, w, snapshots, rfl, hstays, iff_of_true (by simp [Pass.asks]) ?_,
      fun _ _ _ => changed_refl snapshots⟩
    intro l hl
    cases hlocate.symm.trans hl
  | some l =>
    obtain ⟨s, d⟩ := l
    obtain ⟨hs, hd⟩ := hmem _ rfl
    have hknows : (onDisk root cwd settings).Knows w usage ↔ ∀ prop ∈ usage.props, prop ∈ d.props := by
      constructor
      · exact fun hall => hall ⟨s, d⟩ hlocate
      · intro hall l' hl'
        obtain rfl := Option.some.inj (Except.ok.inj (hlocate.symm.trans hl'))
        exact hall
    rw [hknows]
    by_cases hknown : ∀ prop ∈ usage.props, prop ∈ d.props
    · unfold syncDefinition
      rw [run_bind_of_ok (tryRead_eq hlocate)]
      simp only [widening_of_forall _ s hknown]
      exact ⟨_, w, snapshots, rfl, hstays, iff_of_true (by simp [Pass.asks]) hknown,
        fun _ _ _ => changed_refl snapshots⟩
    · have hnew : ∃ prop ∈ usage.props, prop ∉ d.props := by
        simpa only [not_forall, exists_prop] using hknown
      obtain ⟨pass, pushed, w', snapshots', hrun, hasks, hreached, hkept⟩ :=
        exists_syncDefinition_of_new hsnapshots h hname hprops hlocate hs hd hnew
      exact ⟨[pass, pushed], w', snapshots', hrun, hreached,
        iff_of_false (fun hidle => hidle pass List.mem_cons_self hasks) hknown,
        fun hmode hplaceholder hhanded => hkept hmode hplaceholder (hhanded pass List.mem_cons_self)⟩

theorem exists_syncEach {usages : List Usage}
    (hnames : ∀ usage ∈ usages, isComponentName usage.component = true)
    (hprops : ∀ usage ∈ usages, ∀ prop ∈ usage.props, isIdentifier prop = true) (seen : Seen) :
    ∃ passes w' snapshots', (onDisk root cwd settings).syncEach seen usages w = (.ok passes, w') ∧
      Reached (onDisk root cwd settings) w w' snapshots' ∧
      ((∀ p ∈ passes, ¬ p.asks) ↔
        ∀ usage ∈ takenUp seen usages, (onDisk root cwd settings).Knows w usage) ∧
      (settings.widenMode = .append →
        (∀ c ∈ settings.placeholder, c ≠ '<' ∧ c ≠ '>') →
        (∀ p ∈ passes, ∀ prop ∈ p.handedOn, isIdentifier prop = true) →
        Changed TagsKept snapshots snapshots') := by
  induction usages generalizing seen w snapshots with
  | nil =>
    exact ⟨[], w, snapshots, rfl, .refl h hsnapshots, iff_of_true (by simp) (by simp [takenUp]),
      fun _ _ _ => changed_refl snapshots⟩
  | cons usage rest ih =>
    have hstep : ∃ passes w' snapshots',
        (onDisk root cwd settings).syncUsage seen usage w = (.ok passes, w') ∧
        Reached (onDisk root cwd settings) w w' snapshots' ∧
        ((∀ p ∈ passes, ¬ p.asks) ↔ ∀ u ∈ if takesUp seen usage then [usage] else [],
          (onDisk root cwd settings).Knows w u) ∧
        (settings.widenMode = .append →
          (∀ c ∈ settings.placeholder, c ≠ '<' ∧ c ≠ '>') →
          (∀ p ∈ passes, ∀ prop ∈ p.handedOn, isIdentifier prop = true) →
          Changed TagsKept snapshots snapshots') := by
      rw [syncUsage]
      split
      · simp only [List.forall_mem_singleton]
        exact exists_syncDefinition hsnapshots h (hnames usage List.mem_cons_self)
          (hprops usage List.mem_cons_self)
      · exact ⟨[], w, snapshots, rfl, .refl h hsnapshots, iff_of_true (by simp) (by simp),
          fun _ _ _ => changed_refl snapshots⟩
    obtain ⟨passes, w₁, snapshots₁, hrun, hreached₁, hidle₁, hkept₁⟩ := hstep
    obtain ⟨others, w', snapshots', hrest, hreached', hidle', hkept'⟩ :=
      ih hreached₁.opened hreached₁.unhindered
        (fun u hu => hnames u (List.mem_cons_of_mem usage hu))
        (fun u hu => hprops u (List.mem_cons_of_mem usage hu)) (seenAfter seen usage)
    have hsame : (∀ p ∈ passes, ¬ p.asks) → w₁ = w :=
      (traced_syncUsage (onDisk root cwd settings) seen usage w).eq_of_idle hrun
    refine ⟨passes ++ others, w', snapshots', ?_, hreached₁.trans hreached', ?_, ?_⟩
    · rw [syncEach, run_bind_of_ok hrun, run_bind_of_ok hrest]
      rfl
    · simp only [takenUp, List.forall_mem_append]
      rw [← hidle₁]
      refine and_congr_right fun hidle => ?_
      rw [hidle', hsame hidle]
    · intro hmode hplaceholder hhanded
      have hhanded := List.forall_mem_append.1 hhanded
      exact changed_trans (hkept₁ hmode hplaceholder hhanded.1)
        (hkept' hmode hplaceholder hhanded.2)

omit h in
/-- Nothing is done where all tags have all props. -/
theorem syncUsages_of_complete {name : Text} {props : List Text}
    (hcomplete : ∀ s ∈ snapshots, Complete name props s.text) :
    (onDisk root cwd settings).syncUsages name props w =
      (.ok { component := name, direction := .definitionToUsages, status := .noChanges }, w) :=
  syncUsages_of_isEmpty hsnapshots (isEmpty_usagesPlan_iff_complete.2 hcomplete)

/-- The passes for definitions complete the tags of each, and later ones undo nothing. Where all tags
have all props before, these may be anything. -/
theorem exists_pushEach (hplaceholder : ∀ c ∈ settings.placeholder, c ≠ '<' ∧ c ≠ '>')
    {definitions : List Definition} (hnames : ∀ d ∈ definitions, isComponentName d.name = true)
    (hprops : ∀ d ∈ definitions, (∀ prop ∈ d.props, isIdentifier prop = true) ∨
      ∀ s ∈ snapshots, Complete d.name d.props s.text) :
    ∃ passes w' snapshots', (onDisk root cwd settings).pushEach definitions w = (.ok passes, w') ∧
      Unhindered w' ∧ (onDisk root cwd settings).snapshots w' = .ok snapshots' ∧
      Changed TagsKept snapshots snapshots' ∧
      ∀ d ∈ definitions, ∀ s ∈ snapshots', Complete d.name d.props s.text := by
  induction definitions generalizing w snapshots with
  | nil => exact ⟨[], w, snapshots, rfl, h, hsnapshots, changed_refl snapshots, nofun⟩
  | cons d rest ih =>
    have hname := hnames d List.mem_cons_self
    have hstep : ∃ pass w' snapshots',
        (onDisk root cwd settings).syncUsages d.name d.props w = (.ok pass, w') ∧ Unhindered w' ∧
        (onDisk root cwd settings).snapshots w' = .ok snapshots' ∧
        Changed TagsKept snapshots snapshots' ∧ ∀ s ∈ snapshots', Complete d.name d.props s.text := by
      rcases hprops d List.mem_cons_self with hown | hcomplete
      · have hreturn : ∀ prop ∈ d.props, '\r' ∉ prop := fun prop hprop =>
          not_mem_of_isIdentifier (hown prop hprop) (by decide)
        obtain ⟨pass, w', snapshots', hpushed⟩ := exists_pushed hsnapshots h hname hreturn
        refine ⟨pass, w', snapshots', hpushed.run, hpushed.unhindered, hpushed.opened,
          changed_of_completed hplaceholder hown hpushed.completed, ?_⟩
        intro s hs
        obtain ⟨_, -, -, hs⟩ := exists_of_forall₂_of_mem hpushed.completed hs
        exact hs.complete (unifyNewlines_unbracketed hplaceholder) hown hname
      · exact ⟨_, w, snapshots, syncUsages_of_complete hsnapshots hcomplete, h, hsnapshots,
          changed_refl snapshots, hcomplete⟩
    obtain ⟨pass, w₁, snapshots₁, hrun, h₁, hsnapshots₁, hkept₁, hcomplete₁⟩ := hstep
    obtain ⟨others, w', snapshots', hrest, h', hsnapshots', hkept, hcomplete⟩ := ih hsnapshots₁ h₁
      (fun d' hd' => hnames d' (List.mem_cons_of_mem d hd'))
      (fun d' hd' => (hprops d' (List.mem_cons_of_mem d hd')).imp_right fun hcomplete =>
        complete_of_changed (hnames d' (List.mem_cons_of_mem d hd')) hcomplete hkept₁)
    refine ⟨pass :: others, w', snapshots', pushEach_cons hrun hrest, h', hsnapshots',
      changed_trans hkept₁ hkept, ?_⟩
    intro d' hd' s' hs'
    rcases List.mem_cons.1 hd' with rfl | hd'
    · exact complete_of_changed hname hcomplete₁ hkept s' hs'
    · exact hcomplete d' hd' s' hs'

end

theorem mem_firstOfEach_of_find? {names : List Text} {definitions : List Definition} {name : Text}
    {d : Definition} (h : definitions.find? (fun d' => d'.name = name ∧ d'.props ≠ []) = some d)
    (hname : name ∉ names) : d ∈ firstOfEach names definitions := by
  induction definitions generalizing names with
  | nil => cases h
  | cons d' rest ih =>
    rw [firstOfEach]
    by_cases hfirst : d'.name = name ∧ d'.props ≠ []
    · rw [List.find?_cons_of_pos (by simpa using hfirst)] at h
      obtain rfl := Option.some.inj h
      rw [if_neg (by simp [hfirst.1, hfirst.2, hname])]
      exact List.mem_cons_self
    · rw [List.find?_cons_of_neg (by simpa using hfirst)] at h
      split
      · exact ih h hname
      · rename_i hskip
        have hother : name ≠ d'.name := by
          rintro rfl
          simp only [Bool.or_eq_true, List.isEmpty_iff, not_or] at hskip
          exact hfirst ⟨rfl, hskip.1⟩
        exact List.mem_cons_of_mem d' (ih h (List.not_mem_cons_of_ne_of_not_mem hother hname))

theorem mem_of_mem_firstOfEach {names : List Text} {definitions : List Definition} {d : Definition}
    (h : d ∈ firstOfEach names definitions) : d ∈ definitions := by
  induction definitions generalizing names with
  | nil => exact h
  | cons d' rest ih =>
    rw [firstOfEach] at h
    split at h
    · exact List.mem_cons_of_mem d' (ih h)
    · exact (List.mem_cons.1 h).elim (fun heq => heq ▸ List.mem_cons_self)
        fun h => List.mem_cons_of_mem d' (ih h)

theorem isComponentName_of_mem_firstOfEach (text : Text) :
    ∀ d ∈ firstOfEach [] (Definition.scanAll text), isComponentName d.name = true :=
  fun _ hd => Definition.isComponentName_of_mem_scanAll (mem_of_mem_firstOfEach hd)

/-- A save that is not skipped reads the saved text with the built-in scanner. -/
theorem save_eq_of_not_skipped {root : Path} {cwd : List Text} {settings : Settings}
    {event : SaveEvent} {w w' : Workspace} {outcome : Outcome}
    (hsave : (onDisk root cwd settings).save event w = (.ok outcome, w'))
    (hskipped : outcome.skipped = false) :
    (do
      let pushed ← (onDisk root cwd settings).pushEach
        (firstOfEach [] (Definition.scanAll event.text))
      let taken ← (onDisk root cwd settings).syncEach [] (Usage.scan event.text)
      return ({ path := event.path, passes := pushed ++ taken } : Outcome)) w =
        (.ok outcome, w') := by
  rw [save] at hsave
  split at hsave
  · obtain rfl := Except.ok.inj (Prod.mk.inj hsave).1
    cases hskipped
  · cases hscanner : (onDisk root cwd settings).scannerForLanguage? event.language with
    | none =>
      rw [hscanner] at hsave
      obtain rfl := Except.ok.inj (Prod.mk.inj hsave).1
      cases hskipped
    | some scanner =>
      rw [hscanner] at hsave
      obtain rfl : scanner = .lexical := lexical_of_forLanguage? hscanner
      exact hsave

/-- Where the documents cannot be opened, passes for definitions stop at once. -/
theorem pushEach_of_error {root : Path} {cwd : List Text} {settings : Settings}
    {definitions : List Definition} {w : Workspace} {halt : Halt}
    (h : (onDisk root cwd settings).snapshots w = .error halt) (hne : definitions ≠ []) :
    (onDisk root cwd settings).pushEach definitions w = (.error halt, w) := by
  obtain ⟨d, rest, rfl⟩ := List.exists_cons_of_ne_nil hne
  have hplan : (onDisk root cwd settings).planUsages d.name d.props w = .error halt := by
    rw [planUsages, h]
    rfl
  rw [pushEach, syncUsages, run_bind_of_error (run_bind_of_error (tryRead_eq hplan) _)]

theorem exists_snapshots_of_pushEach {root : Path} {cwd : List Text} {settings : Settings}
    {definitions : List Definition} {w w' : Workspace} {passes : List Pass}
    (h : (onDisk root cwd settings).pushEach definitions w = (.ok passes, w'))
    (hne : definitions ≠ []) :
    ∃ snapshots, (onDisk root cwd settings).snapshots w = .ok snapshots := by
  cases hsnapshots : (onDisk root cwd settings).snapshots w with
  | ok snapshots => exact ⟨snapshots, rfl⟩
  | error halt =>
    rw [pushEach_of_error hsnapshots hne] at h
    cases h

/-- When a save in which everything is accepted has ended, the tags of every component that the saved
text defines have the props of its first definition there. -/
theorem save_leaves_complete (root : Path) (cwd : List Text) (settings : Settings)
    (hmode : settings.widenMode = .append)
    (hplaceholder : ∀ c ∈ settings.placeholder, c ≠ '<' ∧ c ≠ '>' ∧ c ≠ '\r')
    {w w' : Workspace} (h : Unhindered w) {event : SaveEvent} {outcome : Outcome}
    (hsave : (onDisk root cwd settings).save event w = (.ok outcome, w'))
    (hskipped : outcome.skipped = false)
    (hhanded : ∀ props ∈ outcome.handedOn event.text, ∀ prop ∈ props, isIdentifier prop = true) :
    ∀ name d, (Definition.scanAll event.text).find?
        (fun d' => d'.name = name ∧ d'.props ≠ []) = some d →
      ∃ plan, (onDisk root cwd settings).planUsages name d.props w' = .ok plan ∧
        plan.isEmpty = true := by
  intro name d hd
  have hfirst := mem_firstOfEach_of_find? hd List.not_mem_nil
  obtain rfl : d.name = name := by
    have hfound := List.find?_some hd
    simp only [decide_eq_true_eq] at hfound
    exact hfound.1
  have hangles : ∀ c ∈ settings.placeholder, c ≠ '<' ∧ c ≠ '>' :=
    fun c hc => ⟨(hplaceholder c hc).1, (hplaceholder c hc).2.1⟩
  have hnames := isComponentName_of_mem_firstOfEach event.text
  have hprops : ∀ d' ∈ firstOfEach [] (Definition.scanAll event.text), ∀ prop ∈ d'.props,
      isIdentifier prop = true := fun d' hd' =>
    hhanded d'.props (List.mem_append_left _ (List.mem_map_of_mem hd'))
  have hrun := save_eq_of_not_skipped hsave hskipped
  obtain ⟨snapshots, hsnapshots⟩ : ∃ snapshots,
      (onDisk root cwd settings).snapshots w = .ok snapshots := by
    rcases hpush : (onDisk root cwd settings).pushEach
      (firstOfEach [] (Definition.scanAll event.text)) w with ⟨halt | passes, w₁⟩
    · rw [run_bind_of_error hpush] at hrun
      cases hrun
    · exact exists_snapshots_of_pushEach hpush (List.ne_nil_of_mem hfirst)
  obtain ⟨pushed, w₁, snapshots₁, hpush, h₁, hsnapshots₁, -, hcomplete⟩ :=
    exists_pushEach hsnapshots h hangles hnames fun d' hd' => Or.inl (hprops d' hd')
  have hcomponents : ∀ usage ∈ Usage.scan event.text, isComponentName usage.component = true :=
    fun _ => Usage.isComponentName_of_mem_scan
  obtain ⟨taken, w₂, snapshots₂, htaken, hreached, -, hkept⟩ :=
    exists_syncEach hsnapshots₁ h₁ hcomponents
      (fun _ => Usage.isIdentifier_of_mem_scan) []
  rw [run_bind_of_ok hpush, run_bind_of_ok htaken] at hrun
  obtain ⟨houtcome, rfl⟩ := Prod.mk.inj hrun
  obtain rfl := Except.ok.inj houtcome
  have hkept' := hkept hmode hangles fun p hp => hhanded p.handedOn
    (List.mem_append_right _ (List.mem_map_of_mem (List.mem_append_right pushed hp)))
  exact ⟨_, planUsages_onDisk hreached.opened d.name d.props, isEmpty_usagesPlan_iff_complete.2
    (complete_of_changed (hnames d hfirst) (hcomplete d hfirst) hkept')⟩

/-- Two components are defined, and the tag of the first one widens its definition after both have
been pushed. -/
theorem save_leaves_complete_of_two :
    let settings : Settings := { widenMode := .append }
    let text := "function A({ t }) {}\nlet B = ({ u = 1, }) => <A v=2 <B/>".toList
    let path := Path.ofText "a.tsx".toList
    let disk := (Disk.empty []).writeMany
      [(path, Utf8.encode text), (Path.ofText "d/b.tsx".toList, Utf8.encode "<A/>".toList)]
    let w : Workspace := { disk }
    let event : SaveEvent := ⟨path, "typescriptreact".toList, text⟩
    let run := (onDisk (Path.ofText []) [] settings).save event w
    (∃ outcome, run.1 = .ok outcome ∧ outcome.passes.map Pass.status =
        [.applied, .applied, .applied, .applied]) ∧
      (∃ plan, (onDisk (Path.ofText []) [] settings).planUsages ['A'] [['t']] run.2 = .ok plan ∧
        plan.isEmpty = true) ∧
      ∃ plan, (onDisk (Path.ofText []) [] settings).planUsages ['B'] [['u']] run.2 = .ok plan ∧
        plan.isEmpty = true := by
  intro settings text path disk w event run
  have hchecks : (match run.1 with
      | .ok o => !o.skipped && (o.handedOn text).all (·.all isIdentifier) &&
          o.passes.map Pass.status = [.applied, .applied, .applied, .applied]
      | .error _ => false) = true := by decide +kernel
  have hfirst : (Definition.scanAll text).find? (fun d => d.name = ['A'] ∧ d.props ≠ []) =
      some ⟨['A'], .function, " t ".toList, 12⟩ := by decide +kernel
  have hsecond : (Definition.scanAll text).find? (fun d => d.name = ['B'] ∧ d.props ≠ []) =
      some ⟨['B'], .arrow, " u = 1, ".toList, 31⟩ := by decide +kernel
  rcases hrun : run with ⟨halt | outcome, w'⟩
  · rw [hrun] at hchecks
    cases hchecks
  · rw [hrun] at hchecks
    simp only [Bool.and_eq_true, Bool.not_eq_true', List.all_eq_true, decide_eq_true_eq] at hchecks
    have hcomplete := save_leaves_complete (Path.ofText []) [] settings rfl (by simp [settings])
      (w := w) ⟨nofun, fun _ _ => List.not_mem_nil⟩ hrun hchecks.1.1 hchecks.1.2
    exact ⟨⟨outcome, rfl, hchecks.2⟩, hcomplete _ _ hfirst, hcomplete _ _ hsecond⟩

end Engine

end Sync

end PropAccord
