import PropAccord.Proofs.AcceptedSaves
import PropAccord.Proofs.KeptDefinitions

/-!
# Saving again

When everything is accepted a save ends, whatever is saved. It asks nothing exactly if all tags have
the props of the definitions in its text, and the usages that it takes up have no other props than
their definitions. A second save may or may not find things so after the first one. The attributes of
a tag are read back as identifiers, so a prop that is none, such as the rest of a destructured
parameter, is missing again however often it has been written. Where the saved text has no usages and
no tags of its own components, both saves push the same props, and a prop of this kind is all that can
give the second one something to do.
-/

namespace PropAccord

set_option autoImplicit false

theorem Tag.grown_append (inserted before : Text) {piece : Text} (h : piece ≠ []) :
    Tag.grown inserted (before ++ piece) = before ++ Tag.grown inserted piece := by
  induction before with
  | nil => rfl
  | cons c before ih =>
    have hne : c :: (before ++ piece) ≠ ['/'] := by
      intro heq
      exact h (List.append_eq_nil_iff.1 (List.cons.inj heq).2).2
    rw [List.cons_append, Tag.grown_cons inserted hne, ih, List.cons_append]

namespace Sync

open Workspace (Unhindered Changed)

/-! ## Tags that stay -/

theorem spaced_insertedIn (placeholder name : Text) (props : List Text) (piece : Text) :
    ∀ c ∈ (insertedIn placeholder name props piece).head?, c = ' ' := by
  intro c hc
  rw [insertedIn] at hc
  split at hc
  · rename_i body _
    rw [insertedFor] at hc
    cases hmissing : Props.missing (Attribute.names body) props with
    | nil =>
      rw [hmissing] at hc
      cases hc
    | cons prop rest =>
      rw [hmissing] at hc
      exact (Option.some.inj hc).symm
  · cases hc

/-- Every component that has a tag in the first text has one in the second text. -/
def TagStays (t t' : Text) : Prop :=
  ∀ name, isComponentName name = true → Tag.scan (.exactly name) t ≠ [] →
    Tag.scan (.exactly name) t' ≠ []

theorem Completed.tagStays {placeholder name : Text} {props : List Text} {t t' : Text}
    (h : Completed placeholder name props t t') : TagStays t t' := by
  intro other hother
  rw [Tag.scan_ne_nil_iff hother, Tag.scan_ne_nil_iff hother]
  induction h with
  | @last t ht =>
    rintro ⟨s, body, hs, hbody, hmem⟩
    exact ⟨s, body, hs, hbody, hmem⟩
  | @piece p rest rest' hp _ ih =>
    rintro ⟨s, body, ⟨front, hfront⟩, hbody, hmem⟩
    rcases List.append_eq_append_iff.1 hfront with ⟨q, rfl, rfl⟩ | ⟨more, -, hmore⟩
    · -- The tag begins in the piece that is completed.
      rw [Tag.opened?_append hother] at hbody
      obtain ⟨b, hb, -⟩ := Option.map_eq_some_iff.1 hbody
      have hq : q ≠ [] := by
        rintro rfl
        cases hb
      let inserted := insertedIn placeholder name props (front ++ q)
      have hopened : Tag.opened? other (Tag.grown inserted q ++ '>' :: rest') =
          some (Tag.grown inserted b ++ '>' :: rest') := by
        have hspaced := spaced_insertedIn placeholder name props (front ++ q)
        rw [Tag.opened?_append hother, Tag.opened?_grown hspaced hother, hb]
        rfl
      refine ⟨_, _, ?_, hopened, List.mem_append_right _ List.mem_cons_self⟩
      rw [completedPiece, Tag.grown_append _ front hq, List.append_assoc]
      exact List.suffix_append front _
    · have hs : s <:+ '>' :: rest := ⟨more, hmore.symm⟩
      rcases List.suffix_cons_iff.1 hs with rfl | hs
      · cases hbody
      · obtain ⟨s', body', hs', hbody', hmem'⟩ := ih ⟨s, body, hs, hbody, hmem⟩
        exact ⟨s', body', hs'.trans ((List.suffix_cons '>' rest').trans (List.suffix_append _ _)),
          hbody', hmem'⟩

/-- Where the component has no tag, nothing is put in. -/
theorem Completed.eq_of_scan_eq_nil {placeholder name : Text} (hname : isComponentName name = true)
    {props : List Text} {t t' : Text} (h : Completed placeholder name props t t')
    (hnone : Tag.scan (.exactly name) t = []) : t' = t := by
  induction h with
  | last _ => rfl
  | @piece p rest rest' hp _ ih =>
    rw [Tag.scan, Tag.scanFrom_append hname hp, List.append_eq_nil_iff] at hnone
    have hrest : Tag.scan (.exactly name) rest = [] :=
      Tag.scanFrom_eq_nil_iff.2 (Tag.scanFrom_eq_nil_iff.1 hnone.2)
    have hpiece : Tag.inPiece? name p = none := by
      have hnone' := hnone.1
      cases hin : Tag.inPiece? name p with
      | none => rfl
      | some found =>
        rw [hin] at hnone'
        cases hnone'
    rw [ih hrest, completedPiece, insertedIn, hpiece, Tag.grown_nil_left]

theorem complete_of_scan_eq_nil {name : Text} {props : List Text} {t : Text}
    (h : Tag.scan (.exactly name) t = []) : Complete name props t := by
  rw [Complete, Tag.attributesIn, h]
  exact fun _ hmem => absurd hmem List.not_mem_nil

/-- A tag never has a prop that is no identifier. -/
theorem Complete.isIdentifier {name : Text} {props : List Text} {t : Text}
    (h : Complete name props t) (htag : Tag.scan (.exactly name) t ≠ []) :
    ∀ prop ∈ props, isIdentifier prop = true := by
  intro prop hprop
  obtain ⟨tag, htag⟩ := List.exists_mem_of_ne_nil _ htag
  exact Tag.isIdentifier_of_mem_attributes htag prop
    (h tag.attributes (List.mem_map_of_mem htag) prop hprop)

namespace Engine

/-! ## Saves that are accepted end -/

section

variable {root : Path} {cwd : List Text} {settings : Settings} {w : Workspace}
  {snapshots : List Snapshot} (hsnapshots : (onDisk root cwd settings).snapshots w = .ok snapshots)
  (h : Unhindered w)
include hsnapshots h

/-- Whatever the props are, passes over the usages end and leave each component its tags, and they do
not touch texts without tags of theirs. They ask nothing exactly if no tag lacks a prop. -/
theorem exists_pushEach_of_any {definitions : List Definition}
    (hnames : ∀ d ∈ definitions, isComponentName d.name = true)
    (hreturn : ∀ d ∈ definitions, ∀ prop ∈ d.props, '\r' ∉ prop) :
    ∃ passes w' snapshots', (onDisk root cwd settings).pushEach definitions w = (.ok passes, w') ∧
      Reached (onDisk root cwd settings) w w' snapshots' ∧
      ((∀ p ∈ passes, ¬ p.asks) ↔
        ∀ d ∈ definitions, ∀ s ∈ snapshots, Complete d.name d.props s.text) ∧
      Changed TagStays snapshots snapshots' ∧
      ∀ path text, w.disk.readText path = .ok text →
        (∀ d ∈ definitions, Tag.scan (.exactly d.name) text = []) →
        w'.disk.readText path = .ok text := by
  induction definitions generalizing w snapshots with
  | nil =>
    refine ⟨[], w, snapshots, rfl, .refl h hsnapshots, iff_of_true (by simp) (by simp), ?_,
      fun _ _ htext _ => htext⟩
    exact List.forall₂_same.2 fun s _ => ⟨rfl, fun _ _ htag => htag⟩
  | cons d rest ih =>
    have hname := hnames d List.mem_cons_self
    obtain ⟨pass, w₁, snapshots₁, hpushed⟩ :=
      exists_pushed hsnapshots h hname (hreturn d List.mem_cons_self)
    have hstays : Changed TagStays snapshots snapshots₁ :=
      hpushed.completed.imp fun _ _ hs => ⟨hs.1, hs.2.tagStays⟩
    obtain ⟨others, w', snapshots', hrest, hreached, hidle, hstays', htexts⟩ :=
      ih hpushed.opened hpushed.unhindered
        (fun d' hd' => hnames d' (List.mem_cons_of_mem d hd'))
        (fun d' hd' => hreturn d' (List.mem_cons_of_mem d hd'))
    refine ⟨pass :: others, w', snapshots', pushEach_cons hpushed.run hrest,
      hpushed.reached.trans hreached, ?_, ?_, ?_⟩
    · rw [List.forall_mem_cons, List.forall_mem_cons, ← hpushed.idle]
      refine and_congr_right fun hfirst => ?_
      -- A pass that asks nothing leaves the documents as they are.
      have hsame : w₁ = w :=
        (traced_syncUsages (onDisk root cwd settings) d.name d.props w).eq_of_idle hpushed.run
          (by simpa using hfirst)
      have hopened := hpushed.opened
      rw [hsame, hsnapshots] at hopened
      rw [hidle, Except.ok.inj hopened]
    · exact forall₂_trans (fun _ _ _ hab hbc => ⟨hbc.1.trans hab.1,
        fun name hname htag => hbc.2 name hname (hab.2 name hname htag)⟩) hstays hstays'
    · intro path text htext hnone
      obtain ⟨text', htext', hchanged⟩ := hpushed.texts path text htext
      have hsame : text' = text := hchanged.elim id fun hcompleted =>
        hcompleted.eq_of_scan_eq_nil hname (hnone d List.mem_cons_self)
      exact htexts path text (hsame ▸ htext') fun d' hd' => hnone d' (List.mem_cons_of_mem d hd')

/-- When props have been pushed, all tags are complete exactly if the props are identifiers, except
where there was no tag. -/
theorem complete_of_pushEach_iff
    (hplaceholder : ∀ c ∈ settings.placeholder, c ≠ '<' ∧ c ≠ '>')
    {definitions : List Definition} (hnames : ∀ d ∈ definitions, isComponentName d.name = true)
    (hreturn : ∀ d ∈ definitions, ∀ prop ∈ d.props, '\r' ∉ prop) {passes : List Pass}
    {w' : Workspace}
    (hpush : (onDisk root cwd settings).pushEach definitions w = (.ok passes, w'))
    {snapshots' : List Snapshot}
    (hsnapshots' : (onDisk root cwd settings).snapshots w' = .ok snapshots') :
    (∀ d ∈ definitions, ∀ s ∈ snapshots', Complete d.name d.props s.text) ↔
      ∀ d ∈ definitions, (∀ prop ∈ d.props, isIdentifier prop = true) ∨
        ∀ s ∈ snapshots, Tag.scan (.exactly d.name) s.text = [] := by
  constructor
  · intro hcomplete d hd
    obtain ⟨_, _, _, hpush₁, hreached, -, hstays, -⟩ :=
      exists_pushEach_of_any hsnapshots h hnames hreturn
    obtain ⟨-, rfl⟩ := Prod.mk.inj (hpush.symm.trans hpush₁)
    obtain rfl := Except.ok.inj (hsnapshots'.symm.trans hreached.opened)
    by_cases hnone : ∀ s ∈ snapshots, Tag.scan (.exactly d.name) s.text = []
    · exact Or.inr hnone
    · left
      simp only [not_forall, exists_prop] at hnone
      obtain ⟨s, hs, htag⟩ := hnone
      obtain ⟨s', hs', -, hstay⟩ := exists_of_forall₂_of_mem hstays.flip hs
      exact (hcomplete d hd s' hs').isIdentifier (hstay d.name (hnames d hd) htag)
  · intro hgood
    obtain ⟨_, _, _, hpush₁, -, hopened, -, hcomplete⟩ := exists_pushEach hsnapshots h hplaceholder
      hnames fun d hd => (hgood d hd).imp_right fun hnone s hs => complete_of_scan_eq_nil (hnone s hs)
    obtain ⟨-, rfl⟩ := Prod.mk.inj (hpush.symm.trans hpush₁)
    obtain rfl := Except.ok.inj (hsnapshots'.symm.trans hopened)
    exact hcomplete

end

theorem save_eq_of_accepts {root : Path} {cwd : List Text} {event : SaveEvent}
    (hlanguage : ({} : Settings).accepts event.language = true) {w w₁ w' : Workspace}
    {pushed taken : List Pass}
    (hpush : (onDisk root cwd {}).pushEach (firstOfEach [] (Definition.scanAll event.text)) w =
      (.ok pushed, w₁))
    (htake : (onDisk root cwd {}).syncEach [] (Usage.scan event.text) w₁ = (.ok taken, w')) :
    (onDisk root cwd {}).save event w =
      (.ok { path := event.path, passes := pushed ++ taken }, w') := by
  have hscanner : (onDisk root cwd {}).scannerForLanguage? event.language = some .lexical :=
    forLanguage?_of_accepts (List.Subset.refl Language.supported) hlanguage
  have haccepted : ¬ (!({} : Settings).accepts event.language) = true := by
    rw [hlanguage]
    exact Bool.false_ne_true
  rw [save, hscanner, if_neg haccepted]
  change ((onDisk root cwd {}).pushEach (firstOfEach [] (Definition.scanAll event.text)) >>= _) w = _
  rw [run_bind_of_ok hpush]
  change ((onDisk root cwd {}).syncEach [] (Usage.scan event.text) >>= _) w₁ = _
  rw [run_bind_of_ok htake]
  rfl

theorem not_mem_of_mem_firstOfEach {text : Text} {c : Char} (h : c ∉ text) :
    ∀ d ∈ firstOfEach [] (Definition.scanAll text), ∀ prop ∈ d.props, c ∉ prop :=
  fun _ hd _ hprop hc => h
    (Definition.mem_of_mem_scanAll (mem_of_mem_firstOfEach hd) (Props.mem_of_mem_namesIn hprop hc))

/-- A save in an unhindered workspace ends. It asks nothing exactly if all tags have the props of the
definitions in the text, and the definitions have the props of the usages in the text. -/
theorem exists_save {root : Path} {cwd : List Text} {w : Workspace} (h : Unhindered w)
    {snapshots : List Snapshot} (hsnapshots : (onDisk root cwd {}).snapshots w = .ok snapshots)
    {event : SaveEvent} (hlanguage : ({} : Settings).accepts event.language = true)
    (hreturn : '\r' ∉ event.text) :
    ∃ outcome w' snapshots', (onDisk root cwd {}).save event w = (.ok outcome, w') ∧
      Reached (onDisk root cwd {}) w w' snapshots' ∧
      ((∀ p ∈ outcome.passes, ¬ p.asks) ↔
        (∀ d ∈ firstOfEach [] (Definition.scanAll event.text), ∀ s ∈ snapshots,
          Complete d.name d.props s.text) ∧
        ∀ usage ∈ takenUp [] (Usage.scan event.text), (onDisk root cwd {}).Knows w usage) := by
  obtain ⟨pushed, w₁, snapshots₁, hpush, hreached₁, hpushed, -⟩ := exists_pushEach_of_any hsnapshots h
    (isComponentName_of_mem_firstOfEach event.text) (not_mem_of_mem_firstOfEach hreturn)
  obtain ⟨taken, w', snapshots', htake, hreached', htaken, -⟩ :=
    exists_syncEach hreached₁.opened hreached₁.unhindered
      (fun _ => Usage.isComponentName_of_mem_scan) (fun _ => Usage.isIdentifier_of_mem_scan) []
  refine ⟨_, w', snapshots', save_eq_of_accepts hlanguage hpush htake, hreached₁.trans hreached', ?_⟩
  rw [List.forall_mem_append, ← hpushed]
  refine and_congr_right fun hidle => ?_
  rw [htaken, (traced_pushEach (onDisk root cwd {}) _ w).eq_of_idle hpush hidle]

/-- After a save of a document, the document is saved again as it is then. Both saves end, and the
second one asks nothing and leaves everything as it is exactly if no tag lacks a prop and no definition
lacks a prop of a usage; so a prop that is no identifier makes it ask if there is a tag. Where the
document had no usages and no tags of its own components, this can be seen before the first save. -/
theorem save_again_idle_iff (root : Path) (cwd : List Text) {w : Workspace} (h : Unhindered w)
    {snapshots : List Snapshot} (hsnapshots : (onDisk root cwd {}).snapshots w = .ok snapshots)
    {event : SaveEvent} (hlanguage : ({} : Settings).accepts event.language = true)
    (hread : w.disk.readText event.path = .ok event.text) :
    ∃ outcome w₁ text snapshots₁ outcome' w₂,
      (onDisk root cwd {}).save event w = (.ok outcome, w₁) ∧
      w₁.disk.readText event.path = .ok text ∧
      (onDisk root cwd {}).snapshots w₁ = .ok snapshots₁ ∧
      (onDisk root cwd {}).save { event with text } w₁ = (.ok outcome', w₂) ∧
      ((∀ pass ∈ outcome'.passes, ¬ pass.asks) ∧ w₂ = w₁ ↔
        (∀ d ∈ firstOfEach [] (Definition.scanAll text), ∀ s ∈ snapshots₁,
          Complete d.name d.props s.text) ∧
        ∀ usage ∈ takenUp [] (Usage.scan text), (onDisk root cwd {}).Knows w₁ usage) ∧
      (∀ d ∈ firstOfEach [] (Definition.scanAll text),
        (∃ prop ∈ d.props, isIdentifier prop = false) →
        (∃ s ∈ snapshots₁, Scanner.lexical.findTags s.text d.name ≠ []) →
        ∃ pass ∈ outcome'.passes, pass.asks) ∧
      (Scanner.lexical.usages event.text = [] →
        (∀ d ∈ firstOfEach [] (Definition.scanAll event.text),
          Scanner.lexical.findTags event.text d.name = []) →
        text = event.text ∧
          ((∀ pass ∈ outcome'.passes, ¬ pass.asks) ∧ w₂ = w₁ ↔
            ∀ d ∈ firstOfEach [] (Definition.scanAll event.text),
              (∀ prop ∈ d.props, isIdentifier prop = true) ∨
                ∀ s ∈ snapshots, Scanner.lexical.findTags s.text d.name = [])) := by
  obtain ⟨outcome, w₁, snapshots₁, hfirst, hreached, -⟩ :=
    exists_save h hsnapshots hlanguage (Disk.not_mem_of_readText hread)
  obtain ⟨text, htext⟩ := hreached.readable event.path event.text hread
  have hlanguage' : ({} : Settings).accepts ({ event with text } : SaveEvent).language = true :=
    hlanguage
  obtain ⟨outcome', w₂, -, hsecond, -, hidle⟩ := exists_save hreached.unhindered hreached.opened
    hlanguage' (Disk.not_mem_of_readText htext)
  have hsame : (∀ pass ∈ outcome'.passes, ¬ pass.asks) → w₂ = w₁ :=
    (traced_save (onDisk root cwd {}) _ w₁).eq_of_idle hsecond
  refine ⟨outcome, w₁, text, snapshots₁, outcome', w₂, hfirst, htext, hreached.opened, hsecond, ?_⟩
  rw [and_iff_left_of_imp hsame]
  refine ⟨hidle, ?_, fun husages hown => ?_⟩
  · rintro d hd ⟨prop, hprop, hnot⟩ ⟨s, hs, htag⟩
    by_contra hnone
    have hcomplete := (hidle.1 fun pass hpass hasks => hnone ⟨pass, hpass, hasks⟩).1 d hd s hs
    rw [hcomplete.isIdentifier htag prop hprop] at hnot
    cases hnot
  · have hplaceholder : ∀ c ∈ ({} : Settings).placeholder, c ≠ '<' ∧ c ≠ '>' := by simp
    have hnames := isComponentName_of_mem_firstOfEach event.text
    have hreturn := not_mem_of_mem_firstOfEach (Disk.not_mem_of_readText hread)
    have husages' : Usage.scan event.text = [] := husages
    -- The first save only pushes the props of the definitions, past the document itself.
    obtain ⟨pushed, w₁', snapshots', hpush, -, -, -, htexts⟩ :=
      exists_pushEach_of_any hsnapshots h hnames hreturn
    have htake : (onDisk root cwd {}).syncEach [] (Usage.scan event.text) w₁' = (.ok [], w₁') := by
      rw [husages']
      rfl
    obtain ⟨-, rfl⟩ := Prod.mk.inj (hfirst.symm.trans (save_eq_of_accepts hlanguage hpush htake))
    obtain rfl : text = event.text :=
      Except.ok.inj (htext.symm.trans (htexts event.path event.text hread hown))
    refine ⟨rfl, hidle.trans ((and_iff_left ?_).trans
      (complete_of_pushEach_iff hsnapshots h hplaceholder hnames hreturn hpush hreached.opened))⟩
    change ∀ usage ∈ takenUp [] (Usage.scan event.text), _
    rw [husages']
    exact fun _ hmem => absurd hmem List.not_mem_nil

/-- A component whose props are identifiers is used in another document. -/
theorem save_again_idle_of_identifiers :
    let text := "function A({ t, u = 1 }) {}\n<B/>".toList
    let path := Path.ofText "a.tsx".toList
    let other := Path.ofText "d/b.tsx".toList
    let disk := (Disk.empty []).writeMany
      [(path, Utf8.encode text), (other, Utf8.encode "<A t='x'/>".toList)]
    let w : Workspace := { disk }
    let event : SaveEvent := ⟨path, "typescriptreact".toList, text⟩
    ∃ outcome w₁ outcome', (onDisk (Path.ofText []) [] {}).save event w = (.ok outcome, w₁) ∧
      w₁.disk.readText other ≠ w.disk.readText other ∧
      (onDisk (Path.ofText []) [] {}).save event w₁ = (.ok outcome', w₁) ∧
      ∀ pass ∈ outcome'.passes, ¬ pass.asks := by
  intro text path other disk w event
  have hsnapshots : (onDisk (Path.ofText []) [] {}).snapshots w =
      .ok [⟨path, text, none⟩, ⟨other, "<A t='x'/>".toList, none⟩] := by decide +kernel
  have hread : w.disk.readText event.path = .ok event.text := by decide +kernel
  have hunhindered : Unhindered w := ⟨nofun, fun _ _ => List.not_mem_nil⟩
  have hgood : ∀ d ∈ firstOfEach [] (Definition.scanAll text), ∀ prop ∈ d.props,
      isIdentifier prop = true := by decide +kernel
  have hwritten : ((onDisk (Path.ofText []) [] {}).save event w).2.disk.readText other ≠
      w.disk.readText other := by decide +kernel
  obtain ⟨outcome, w₁, text', -, outcome', w₂, hfirst, -, -, hsecond, -, -, hcase⟩ :=
    save_again_idle_iff (Path.ofText []) [] hunhindered hsnapshots (by decide +kernel) hread
  obtain ⟨htext, hiff⟩ := hcase (by decide +kernel) (by decide +kernel)
  obtain ⟨hidle, hsame⟩ := hiff.2 fun d hd => Or.inl (hgood d hd)
  rw [htext, hsame] at hsecond
  rw [hfirst] at hwritten
  exact ⟨outcome, w₁, outcome', hfirst, hwritten, hsecond, hidle⟩

/-- The rest of a destructured parameter is pushed as a prop, and pushed again at the next save. -/
theorem save_again_asks_for_rest :
    let text := "function A({ t, ...rest }) {}".toList
    let path := Path.ofText "a.tsx".toList
    let other := Path.ofText "d/b.tsx".toList
    let disk := (Disk.empty []).writeMany
      [(path, Utf8.encode text), (other, Utf8.encode "<A t=1 />".toList)]
    let engine := onDisk (Path.ofText []) [] {}
    let event : SaveEvent := ⟨path, "typescriptreact".toList, text⟩
    let first := engine.save event { disk }
    let second := engine.save event first.2
    first.2.disk.readText path = .ok text ∧ second.2.asked ≠ first.2.asked ∧
      first.2.disk.readText other =
        .ok "<A t=1  ...rest=\x7b/* TODO: completar */\x7d/>".toList ∧
      second.2.disk.readText other =
        .ok ("<A t=1  ...rest=\x7b/* TODO: completar */\x7d".toList ++
          " ...rest=\x7b/* TODO: completar */\x7d/>".toList) := by
  decide +kernel

end Engine

end Sync

end PropAccord
