import PropAccord.Proofs.ApartTags
import PropAccord.Proofs.Discovered
import PropAccord.Proofs.TwinRuns

/-!
# The order of definitions

A save pushes the props of the definitions that it scans, one after the other. Each pass reads the
documents anew and writes those that it lengthens. If the components have no tags that overlap, the
documents end up with the same texts in whatever order the definitions were scanned. A file that is
written has nothing left of its old bytes, so these are the same as well if no carriage return is
written. The passes that follow see texts only, so the whole save leaves the same texts.
-/

namespace PropAccord

set_option autoImplicit false

/-! ## Disks with the same files -/

namespace Tree

theorem eq_of_outlines {entries entries' : List (Text × Tree)} (h : (entries.map (·.1)).Nodup)
    (ho : outlines entries' = outlines entries)
    (hlookup : ∀ name, entries'.lookup name = entries.lookup name) : entries' = entries := by
  induction entries generalizing entries' with
  | nil =>
    cases entries' with
    | nil => rfl
    | cons entry rest => simp [outlines] at ho
  | cons entry rest ih =>
    obtain ⟨name, tree⟩ := entry
    cases entries' with
    | nil => simp [outlines] at ho
    | cons entry' rest' =>
      obtain ⟨name', tree'⟩ := entry'
      simp only [outlines, List.cons.injEq, Prod.mk.injEq] at ho
      obtain ⟨⟨rfl, -⟩, horest⟩ := ho
      simp only [lookup_entry] at hlookup
      obtain rfl : tree' = tree := by simpa using hlookup name'
      rw [List.map_cons, List.nodup_cons] at h
      rw [ih h.2 horest]
      intro other
      by_cases hother : other = name'
      · have hnone : rest.lookup name' = none := by
          refine List.lookup_eq_none_iff.2 fun entry hentry => bne_iff_ne.2 ?_
          have hmem : entry.1 ∈ rest.map (·.1) := List.mem_map_of_mem hentry
          exact fun heq => h.1 (heq ▸ hmem)
        have hnone' : rest'.lookup name' = none := by
          rw [← Option.map_eq_none_iff (f := outline), ← lookup_outlines, horest, lookup_outlines,
            hnone]
          rfl
        rw [hother, hnone, hnone']
      · simpa [hother] using hlookup other

/-- A tree is known by its outline and by what stands at each place. -/
theorem eq_of_outline {s t : Tree} (hs : s.Distinct) (ho : t.outline = s.outline)
    (hv : ∀ place, t.view place = s.view place) : t = s := by
  induction s using Tree.induction_entries generalizing t with
  | hfile bytes =>
    cases t with
    | file bytes' => exact congrArg file (Option.some.inj (Option.some.inj (hv [])))
    | folder entries => simp [outline] at ho
  | hfolder entries ih =>
    cases t with
    | file bytes => simp [outline] at ho
    | folder entries' =>
      simp only [outline, folder.injEq] at ho
      congr 1
      refine eq_of_outlines (distinct_folder_iff.1 hs).1 ho fun name => ?_
      have houtline : (entries'.lookup name).map outline = (entries.lookup name).map outline := by
        rw [← lookup_outlines, ← lookup_outlines, ho]
      cases hfound : entries.lookup name with
      | none => rwa [hfound, Option.map_none, Option.map_eq_none_iff] at houtline
      | some below =>
        rw [hfound, Option.map_some, Option.map_eq_some_iff] at houtline
        obtain ⟨below', hfound', ho'⟩ := houtline
        rw [hfound']
        have hchild : (folder entries).child? name = some below := hfound
        have hchild' : (folder entries').child? name = some below' := hfound'
        refine congrArg some
          (ih (name, below) (mem_of_lookup hfound) (hs.child hchild) ho' fun place => ?_)
        have hview := hv (name :: place)
        rwa [view_cons, view_cons, hchild, hchild'] at hview

end Tree

namespace Disk

theorem eq_of_view {d e : Disk} (hcwd : e.cwd = d.cwd) (hlimits : e.limits = d.limits)
    (ho : e.tree.outline = d.tree.outline) (hv : ∀ place, e.view place = d.view place) : e = d := by
  obtain ⟨tree, cwd, limits, hdistinct⟩ := d
  obtain ⟨tree', cwd', limits', hdistinct'⟩ := e
  obtain rfl : cwd' = cwd := hcwd
  obtain rfl : limits' = limits := hlimits
  obtain rfl : tree' = tree := Tree.eq_of_outline hdistinct ho hv
  rfl

/-- The text of the file that stands at a place. -/
def textAt? (d : Disk) (place : List Text) : Option Text :=
  (d.view place).bind fun bytes? => bytes?.bind fun bytes => (textOf bytes).toOption

theorem textAt?_of_view {d : Disk} {place : List Text} {bytes : Bytes} {text : Text}
    (h : d.view place = some (some bytes)) (htext : textOf bytes = .ok text) :
    d.textAt? place = some text := by
  rw [textAt?, h, Option.bind_some, Option.bind_some, htext]
  rfl

theorem textAt?_of_readText {d : Disk} {p : Path} {text : Text} (h : d.readText p = .ok text) :
    d.textAt? (p.resolve d.cwd) = some text := by
  obtain ⟨bytes, hbytes, htext⟩ := readText_eq_ok_iff.1 h
  exact textAt?_of_view (readBytes_eq_ok_iff.1 hbytes).2 htext

section

variable {written : Text → Prop} {places : List (List Text)} {d d₁ d₂ : Disk}
  (h₁ : d.Lengthened written places d₁) (h₂ : d.Lengthened written places d₂)
  (htexts : ∀ place ∈ places, d₂.textAt? place = d₁.textAt? place)
include h₁ h₂ htexts

/-- Where files of a disk are lengthened to the same texts on two sides, a file that becomes longer on
one side does so on the other. -/
theorem Lengthened.view_both (place : List Text) : d₂.view place = d₁.view place ∨
    ∃ file₁ file₂, d₁.view place = some (some (Utf8.encode file₁)) ∧ written file₁ ∧
      d₂.view place = some (some (Utf8.encode file₂)) ∧ written file₂ ∧
      file₂.unifyNewlines = file₁.unifyNewlines := by
  have hgrown {e : Disk} {bytes : Bytes} {old file : Text} (hbytes : d.view place = some (some bytes))
      (hold : textOf bytes = .ok old) (hlength : old.length < file.unifyNewlines.length)
      (hsame : e.view place = d.view place) : e.textAt? place ≠ some file.unifyNewlines := by
    rw [textAt?_of_view (hsame.trans hbytes) hold]
    intro htext
    rw [Option.some.inj htext] at hlength
    exact Nat.lt_irrefl _ hlength
  rcases h₁.view place with
    hsame₁ | ⟨hplace, bytes, old, file₁, hbytes, hold, hfile₁, hwritten₁, hlength⟩
  · rcases h₂.view place with hsame₂ | ⟨hplace, bytes, old, file, hbytes, hold, hfile, -, hlength⟩
    · exact Or.inl (hsame₂.trans hsame₁.symm)
    · have htext := (htexts place hplace).symm.trans (textAt?_of_view hfile (textOf_encode_eq file))
      exact absurd htext (hgrown hbytes hold hlength hsame₁)
  · have htext := (htexts place hplace).trans (textAt?_of_view hfile₁ (textOf_encode_eq file₁))
    rcases h₂.view place with hsame₂ | ⟨-, -, -, file₂, -, -, hfile₂, hwritten₂, -⟩
    · exact absurd htext (hgrown hbytes hold hlength hsame₂)
    · rw [textAt?_of_view hfile₂ (textOf_encode_eq file₂), Option.some.injEq] at htext
      exact Or.inr ⟨file₁, file₂, hfile₁, hwritten₁, hfile₂, hwritten₂, htext⟩

theorem Lengthened.sameTexts : d₁.SameTexts d₂ := by
  refine ⟨h₂.cwd.trans h₁.cwd.symm, h₂.limits.trans h₁.limits.symm,
    h₂.outline.trans h₁.outline.symm, fun place => ?_⟩
  rcases h₁.view_both h₂ htexts place with hsame | ⟨file₁, file₂, hfile₁, -, hfile₂, -, htext⟩
  · rw [hsame]
  · rw [hfile₁, hfile₂, Option.map_some, Option.map_some, Option.map_some, Option.map_some,
      textOf_encode_eq, textOf_encode_eq, htext]

/-- A file that was written without carriage returns has nothing left of its old line ends. -/
theorem Lengthened.eq_of_texts (hwritten : ∀ file, written file → '\r' ∉ file) : d₂ = d₁ := by
  refine eq_of_view (h₂.cwd.trans h₁.cwd.symm) (h₂.limits.trans h₁.limits.symm)
    (h₂.outline.trans h₁.outline.symm) fun place => ?_
  rcases h₁.view_both h₂ htexts place with
    hsame | ⟨file₁, file₂, hfile₁, hclean₁, hfile₂, hclean₂, htext⟩
  · exact hsame
  · rw [Text.unifyNewlines_of_not_mem (hwritten file₁ hclean₁),
      Text.unifyNewlines_of_not_mem (hwritten file₂ hclean₂)] at htext
    rw [hfile₁, hfile₂, htext]

end

end Disk

namespace Sync

open Workspace (Unhindered Changed Twin Respects)

namespace Engine

/-! ## Passes in any order -/

section

variable {root : Path} {cwd : List Text} {settings : Settings}

/-- What the passes for definitions do to an unhindered workspace, seen by its documents and by its
disk. -/
theorem exists_pushEach_completedBy {w : Workspace} {snapshots : List Snapshot}
    (hsnapshots : (onDisk root cwd settings).snapshots w = .ok snapshots) (h : Unhindered w)
    {definitions : List Definition}
    (hnames : ∀ d ∈ definitions, isComponentName d.name = true)
    (hprops : ∀ d ∈ definitions, ∀ prop ∈ d.props, isIdentifier prop = true) :
    ∃ passes w' snapshots', (onDisk root cwd settings).pushEach definitions w = (.ok passes, w') ∧
      Unhindered w' ∧ (onDisk root cwd settings).snapshots w' = .ok snapshots' ∧
      Changed (CompletedBy settings.placeholder.unifyNewlines definitions) snapshots snapshots' ∧
      w.disk.Lengthened (fun file => '\r' ∉ settings.placeholder → '\r' ∉ file)
        (snapshots.map fun s => s.path.resolve w.disk.cwd) w'.disk := by
  induction definitions generalizing w snapshots with
  | nil =>
    refine ⟨[], w, snapshots, rfl, h, hsnapshots, ?_, .refl _⟩
    exact List.forall₂_same.2 fun s _ => ⟨rfl, .nil⟩
  | cons d rest ih =>
    have hreturn : ∀ prop ∈ d.props, '\r' ∉ prop := fun prop hprop =>
      not_mem_of_isIdentifier (hprops d List.mem_cons_self prop hprop) (by decide)
    obtain ⟨pass, w₁, snapshots₁, hpushed⟩ :=
      exists_pushed hsnapshots h (hnames d List.mem_cons_self) hreturn
    obtain ⟨others, w', snapshots', hrest, h', hsnapshots', hcompleted, hlengthened⟩ :=
      ih hpushed.opened hpushed.unhindered (fun d' hd' => hnames d' (List.mem_cons_of_mem d hd'))
        (fun d' hd' => hprops d' (List.mem_cons_of_mem d hd'))
    have hpaths := congrArg (List.map (Path.resolve w.disk.cwd)) hpushed.completed.map_path
    rw [List.map_map, List.map_map] at hpaths
    have hplaces : (snapshots₁.map fun s => s.path.resolve w₁.disk.cwd) =
        snapshots.map fun s => s.path.resolve w.disk.cwd := by
      rw [hpushed.lengthened.cwd]
      exact hpaths
    rw [hplaces] at hlengthened
    refine ⟨pass :: others, w', snapshots', pushEach_cons hpushed.run hrest, h', hsnapshots', ?_,
      hpushed.lengthened.trans hlengthened⟩
    exact forall₂_trans (fun _ _ _ hab hbc => ⟨hbc.1.trans hab.1, .cons hab.2 hbc.2⟩)
      hpushed.completed hcompleted

theorem exists_textAt?_of_changed {w' : Workspace} {snapshots snapshots' : List Snapshot}
    (hsnapshots : (onDisk root cwd settings).snapshots w' = .ok snapshots') {R : Text → Text → Prop}
    (hchanged : Changed R snapshots snapshots') {s : Snapshot} (hs : s ∈ snapshots) :
    ∃ text, R s.text text ∧ w'.disk.textAt? (s.path.resolve w'.disk.cwd) = some text := by
  obtain ⟨s', hs', hpath, hR⟩ := exists_of_forall₂_of_mem hchanged.flip hs
  have hread := Workspace.readText_of_mem_snapshots hsnapshots s' hs'
  exact ⟨s'.text, hR, hpath ▸ Disk.textAt?_of_readText hread⟩

/-- Independent definitions may be pushed in any order: the passes end, and they leave the same texts.
If the placeholder has no carriage return, they leave the same bytes. -/
theorem exists_pushEach_of_perm (hplaceholder : ∀ c ∈ settings.placeholder, c ≠ '<' ∧ c ≠ '>')
    {w : Workspace} {snapshots : List Snapshot}
    (hsnapshots : (onDisk root cwd settings).snapshots w = .ok snapshots) (h : Unhindered w)
    {definitions definitions' : List Definition} (hperm : definitions.Perm definitions')
    (hnames : ∀ d ∈ definitions, isComponentName d.name = true)
    (hprops : ∀ d ∈ definitions, ∀ prop ∈ d.props, isIdentifier prop = true)
    (hindependent : ∀ s ∈ snapshots, Independent definitions s.text) :
    ∃ passes passes' w₁ w₂, (onDisk root cwd settings).pushEach definitions w = (.ok passes, w₁) ∧
      (onDisk root cwd settings).pushEach definitions' w = (.ok passes', w₂) ∧
      Twin ('\r' ∉ settings.placeholder) w₁ w₂ := by
  obtain ⟨passes, w₁, snapshots₁, hrun₁, h₁, hsnapshots₁, hcompleted₁, hlengthened₁⟩ :=
    exists_pushEach_completedBy hsnapshots h hnames hprops
  obtain ⟨passes', w₂, snapshots₂, hrun₂, h₂, hsnapshots₂, hcompleted₂, hlengthened₂⟩ :=
    exists_pushEach_completedBy hsnapshots h (fun d hd => hnames d (hperm.mem_iff.2 hd))
      (fun d hd => hprops d (hperm.mem_iff.2 hd))
  have htexts : ∀ place ∈ snapshots.map fun s => s.path.resolve w.disk.cwd,
      w₂.disk.textAt? place = w₁.disk.textAt? place := by
    intro place hplace
    obtain ⟨s, hs, rfl⟩ := List.mem_map.1 hplace
    obtain ⟨text₁, htext₁, hread₁⟩ := exists_textAt?_of_changed hsnapshots₁ hcompleted₁ hs
    obtain ⟨text₂, htext₂, hread₂⟩ := exists_textAt?_of_changed hsnapshots₂ hcompleted₂ hs
    rw [hlengthened₁.cwd] at hread₁
    rw [hlengthened₂.cwd] at hread₂
    rw [hread₁, hread₂,
      htext₁.eq_of_perm (unifyNewlines_unbracketed hplaceholder) hperm (hindependent s hs) htext₂]
  exact ⟨passes, passes', w₁, w₂, hrun₁, hrun₂, h₁, h₂, hlengthened₁.sameTexts hlengthened₂ htexts,
    fun hline => hlengthened₁.eq_of_texts hlengthened₂ htexts fun _ hwritten => hwritten hline⟩

end

/-! ## One document -/

/-- A document whose tags of a component have been planned for and completed. -/
def pushInto {σ : Type} (e : Engine σ) (name : Text) (props : List Text) (s : Snapshot) :
    Except Halt Snapshot := do
  let plans ← e.planFiles name props [s]
  let text ← (textAfter plans s).mapError .fault
  return { s with text }

theorem pushInto_of_completed {σ : Type} (host : Host σ) (settings : Settings) {name : Text}
    (hname : isComponentName name = true) {props : List Text} {s : Snapshot} {text : Text}
    (h : Completed settings.placeholder name props s.text text) :
    pushInto { host, settings } name props s = .ok { s with text } := by
  obtain ⟨text', happly, hcompleted⟩ := exists_apply_tagPlan hname settings.placeholder props s
  obtain rfl := h.unique hcompleted
  have hafter := textAfter_standard settings.placeholder name props (List.mem_singleton_self s)
  rw [pushInto, planFiles_standard]
  simp only [bind, Except.bind, hafter, happly]
  rfl

/-! ## Saves that scan in another order -/

theorem firstOfEach_eq_filter {names : List Text} {definitions : List Definition}
    (hdistinct : definitions.Pairwise fun d d' => d.name ≠ d'.name)
    (hnew : ∀ d ∈ definitions, d.name ∉ names) :
    firstOfEach names definitions = definitions.filter fun d => !d.props.isEmpty := by
  induction definitions generalizing names with
  | nil => rfl
  | cons d rest ih =>
    obtain ⟨hother, hrest⟩ := List.pairwise_cons.1 hdistinct
    have hcontains : names.contains d.name = false := by simpa using hnew d List.mem_cons_self
    rw [firstOfEach, hcontains, Bool.or_false, List.filter_cons]
    cases d.props.isEmpty with
    | true => exact ih hrest fun d' hd' => hnew d' (List.mem_cons_of_mem d hd')
    | false =>
      refine congrArg (d :: ·) (ih hrest fun d' hd' => ?_)
      exact List.not_mem_cons_of_ne_of_not_mem (hother d' hd').symm
        (hnew d' (List.mem_cons_of_mem d hd'))

/-- Synchronisation of files on disk with the built-in scanner, except that the definitions of a text
are scanned in an order of their own. -/
abbrev scanning (root : Path) (cwd : List Text) (settings : Settings)
    (definitions : Text → List Definition) : Engine Workspace :=
  { onDisk root cwd settings with scanner := some { Scanner.lexical with definitions } }

section

variable (root : Path) (cwd : List Text) (settings : Settings) (definitions : Text → List Definition)

/-- Whatever order definitions are scanned in, documents are read with the built-in scanner. -/
theorem scannerOf_onDisk (p : Path) : (onDisk root cwd settings).scannerOf p = .lexical :=
  Except.ok.inj ((scannerFor_eq _ p).symm.trans (scannerFor_standard _ settings p))

theorem syncUsages_scanning (name : Text) (props : List Text) :
    (scanning root cwd settings definitions).syncUsages name props =
      (onDisk root cwd settings).syncUsages name props := by
  have hplan : (scanning root cwd settings definitions).filePlan? name props =
      (onDisk root cwd settings).filePlan? name props := by
    funext s
    rw [filePlan?, filePlan?, scannerOf_onDisk]
    rfl
  have hplans : (scanning root cwd settings definitions).planUsages name props =
      (onDisk root cwd settings).planUsages name props := by
    funext w
    rw [planUsages_eq, planUsages_eq, hplan]
    rfl
  unfold syncUsages
  rw [hplans]

theorem pushEach_scanning (scanned : List Definition) :
    (scanning root cwd settings definitions).pushEach scanned =
      (onDisk root cwd settings).pushEach scanned := by
  induction scanned with
  | nil => rfl
  | cons d rest ih => rw [pushEach, pushEach, syncUsages_scanning, ih]

theorem syncDefinition_scanning (usage : Usage) :
    (scanning root cwd settings definitions).syncDefinition usage =
      (onDisk root cwd settings).syncDefinition usage := by
  have hlocated : (scanning root cwd settings definitions).locatedIn? usage.component =
      (onDisk root cwd settings).locatedIn? usage.component := by
    funext s
    rw [locatedIn?, locatedIn?, scannerOf_onDisk]
    rfl
  have hlocate : (scanning root cwd settings definitions).locate usage.component =
      (onDisk root cwd settings).locate usage.component := by
    funext w
    rw [locate_eq, locate_eq, hlocated]
    rfl
  unfold syncDefinition
  rw [hlocate]
  simp only [syncUsages_scanning]

theorem syncEach_scanning (seen : Seen) (usages : List Usage) :
    (scanning root cwd settings definitions).syncEach seen usages =
      (onDisk root cwd settings).syncEach seen usages := by
  induction usages generalizing seen with
  | nil => rfl
  | cons usage rest ih => rw [syncEach, syncEach, ih, syncUsage, syncUsage, syncDefinition_scanning]

/-- The order of definitions matters to the passes that push them, and to no others. -/
theorem save_scanning {event : SaveEvent} (h : settings.accepts event.language = true) :
    (scanning root cwd settings definitions).save event = (do
      let pushed ← (onDisk root cwd settings).pushEach (firstOfEach [] (definitions event.text))
      let taken ← (onDisk root cwd settings).syncEach [] (Usage.scan event.text)
      return ({ path := event.path, passes := pushed ++ taken } : Outcome)) := by
  rw [← pushEach_scanning root cwd settings definitions,
    ← syncEach_scanning root cwd settings definitions, save, h]
  rfl

end

/-- Definitions of different components, each with props that are identifiers, and documents in which
their tags lie apart. -/
structure Unrelated (scanned : List Definition) (documents : List Snapshot) : Prop where
  named : ∀ d ∈ scanned, isComponentName d.name = true
  identifiers : ∀ d ∈ scanned, ∀ prop ∈ d.props, isIdentifier prop = true
  distinct : scanned.Pairwise fun d d' => d.name ≠ d'.name
  apart : ∀ s ∈ documents, scanned.Pairwise fun d d' => Tag.Apart d.name d'.name s.text

theorem Unrelated.sublist {scanned scanned' : List Definition} {documents : List Snapshot}
    (h : Unrelated scanned documents) (hsublist : scanned'.Sublist scanned) :
    Unrelated scanned' documents :=
  ⟨fun d hd => h.named d (hsublist.subset hd), fun d hd => h.identifiers d (hsublist.subset hd),
    h.distinct.sublist hsublist, fun s hs => (h.apart s hs).sublist hsublist⟩

theorem Unrelated.independent {scanned : List Definition} {documents : List Snapshot}
    (h : Unrelated scanned documents) : ∀ s ∈ documents, Independent scanned s.text :=
  fun s hs => ⟨h.named, h.identifiers, (h.apart s hs).imp_of_mem fun hd hd' =>
    Tag.separate_of_apart (h.named _ hd) (h.named _ hd')⟩

theorem firstOfEach_eq_nil_iff {names : List Text} {definitions : List Definition} :
    firstOfEach names definitions = [] ↔ ∀ d ∈ definitions, d.props = [] ∨ d.name ∈ names := by
  induction definitions with
  | nil => exact iff_of_true rfl nofun
  | cons d rest ih =>
    rw [firstOfEach, List.forall_mem_cons]
    split
    · rename_i hskipped
      rw [Bool.or_eq_true, List.isEmpty_iff, List.contains_iff_mem] at hskipped
      rw [ih, and_iff_right hskipped]
    · rename_i htaken
      rw [Bool.or_eq_true, List.isEmpty_iff, List.contains_iff_mem] at htaken
      exact iff_of_false (List.cons_ne_nil d _) fun hall => htaken hall.1

theorem firstOfEach_perm {scanned scanned' : List Definition} (hperm : scanned.Perm scanned')
    (hdistinct : scanned.Pairwise fun d d' => d.name ≠ d'.name) :
    (firstOfEach [] scanned).Sublist scanned ∧
      (firstOfEach [] scanned).Perm (firstOfEach [] scanned') := by
  have hdistinct' := (hperm.pairwise_iff fun hne => Ne.symm hne).1 hdistinct
  rw [firstOfEach_eq_filter hdistinct fun _ _ => List.not_mem_nil,
    firstOfEach_eq_filter hdistinct' fun _ _ => List.not_mem_nil]
  exact ⟨List.filter_sublist, hperm.filter _⟩

/-- Unrelated definitions may be scanned in any order: the save leaves the same texts, and it ends in
both orders or stops in both. -/
theorem twin_save_of_perm {root : Path} {cwd : List Text} {settings : Settings}
    (hplaceholder : ∀ c ∈ settings.placeholder, c ≠ '<' ∧ c ≠ '>') {w : Workspace} (h : Unhindered w)
    {event : SaveEvent} {definitions definitions' : Text → List Definition}
    (hperm : (definitions event.text).Perm (definitions' event.text))
    (hunrelated : ∀ documents, (onDisk root cwd settings).snapshots w = .ok documents →
      Unrelated (definitions event.text) documents) :
    Twin ('\r' ∉ settings.placeholder) ((scanning root cwd settings definitions).save event w).2
        ((scanning root cwd settings definitions').save event w).2 ∧
      ((∃ outcome, ((scanning root cwd settings definitions').save event w).1 = .ok outcome) ↔
        ∃ outcome, ((scanning root cwd settings definitions).save event w).1 = .ok outcome) := by
  have hrefl : Twin ('\r' ∉ settings.placeholder) w w := ⟨h, h, .refl w.disk, fun _ => rfl⟩
  by_cases haccepts : settings.accepts event.language = true
  · rw [save_scanning _ _ _ _ haccepts, save_scanning _ _ _ _ haccepts]
    cases hsnapshots : (onDisk root cwd settings).snapshots w with
    | error halt =>
      have hnone : firstOfEach [] (definitions' event.text) = [] ↔
          firstOfEach [] (definitions event.text) = [] := by
        simp only [firstOfEach_eq_nil_iff, hperm.mem_iff]
      by_cases hnil : firstOfEach [] (definitions event.text) = []
      · rw [hnil, hnone.2 hnil]
        exact (respects_syncEach [] (Usage.scan event.text)).ends_alike
          (fun taken => ({ path := event.path, passes := [] ++ taken } : Outcome)) _ hrefl
      · rw [run_bind_of_error (pushEach_of_error hsnapshots hnil),
          run_bind_of_error (pushEach_of_error hsnapshots (hnil ∘ hnone.1))]
        exact ⟨hrefl, Iff.rfl⟩
    | ok documents =>
      have hall := hunrelated documents hsnapshots
      obtain ⟨hsublist, hfirst⟩ := firstOfEach_perm hperm hall.distinct
      have hkept := hall.sublist hsublist
      obtain ⟨pushed, pushed', w₁, w₂, hrun, hrun', htwin⟩ := exists_pushEach_of_perm hplaceholder
        hsnapshots h hfirst hkept.named hkept.identifiers hkept.independent
      rw [run_bind_of_ok hrun, run_bind_of_ok hrun']
      exact (respects_syncEach [] (Usage.scan event.text)).ends_alike
        (fun taken => ({ path := event.path, passes := pushed ++ taken } : Outcome))
        (fun taken => ({ path := event.path, passes := pushed' ++ taken } : Outcome)) htwin
  · have hskip (f : Text → List Definition) : (scanning root cwd settings f).save event =
        pure { path := event.path, skipped := true } := by
      rw [save, Bool.eq_false_iff.2 haccepts]
      rfl
    rw [hskip, hskip]
    exact ⟨hrefl, Iff.rfl⟩

/-- Completing the tags of two components that lie apart gives the same document in either order, and
a save leaves the same texts in whatever order it scans unrelated definitions. It leaves the same bytes,
too, unless the placeholder has a carriage return: this is read back as a line feed, so the bytes show
which pass came last. -/
theorem pushes_commute (settings : Settings)
    (hplaceholder : ∀ c ∈ settings.placeholder, c ≠ '<' ∧ c ≠ '>') :
    (∀ (σ : Type) (host : Host σ) (s : Snapshot) (name other : Text) (props others : List Text),
      isComponentName name = true → isComponentName other = true →
      (∀ prop ∈ props, isIdentifier prop = true) → (∀ prop ∈ others, isIdentifier prop = true) →
      Tag.Apart name other s.text →
      ∃ both,
        (pushInto { host, settings } name props s >>= pushInto { host, settings } other others) =
          .ok both ∧
        (pushInto { host, settings } other others s >>= pushInto { host, settings } name props) =
          .ok both) ∧
    ∀ (root : Path) (cwd : List Text) (w : Workspace) (event : SaveEvent)
      (definitions definitions' : Text → List Definition),
      Unhindered w → (definitions event.text).Perm (definitions' event.text) →
      (∀ documents, (onDisk root cwd settings).snapshots w = .ok documents →
        Unrelated (definitions event.text) documents) →
      let run := (scanning root cwd settings definitions).save event w
      let run' := (scanning root cwd settings definitions').save event w
      run.2.disk.SameTexts run'.2.disk ∧ ('\r' ∉ settings.placeholder → run'.2.disk = run.2.disk) ∧
        ((∃ outcome, run'.1 = .ok outcome) ↔ ∃ outcome, run.1 = .ok outcome) := by
  constructor
  · intro σ host s name other props others hname hother hprops hothers hapart
    obtain ⟨first, second, both, hfirst, hthen, hsecond, hthen'⟩ :=
      exists_completed_both hplaceholder hname hother hprops hothers
        (Tag.separate_of_apart hname hother hapart)
    refine ⟨{ s with text := both }, ?_, ?_⟩
    · rw [pushInto_of_completed host settings hname hfirst]
      exact pushInto_of_completed host settings hother (s := { s with text := first }) hthen
    · rw [pushInto_of_completed host settings hother hsecond]
      exact pushInto_of_completed host settings hname (s := { s with text := second }) hthen'
  · intro root cwd w event definitions definitions' h hperm hunrelated
    obtain ⟨htwin, hends⟩ := twin_save_of_perm hplaceholder h hperm hunrelated
    exact ⟨htwin.texts, htwin.disk, hends⟩

/-- Two components are defined and used in one document, in which the tag of the one stands behind that
of the other. -/
theorem pushes_commute_of_reversed :
    let settings : Settings := { placeholder := "\x7b0\x7d".toList }
    let text := "function A({ t }) {}\nconst B = ({ u }) => <A v=1><B/>".toList
    let path := Path.ofText "a.tsx".toList
    let w : Workspace := { disk := (Disk.empty []).writeMany [(path, Utf8.encode text)] }
    let event : SaveEvent := ⟨path, "typescriptreact".toList, text⟩
    let reversed := fun t => (Definition.scanAll t).reverse
    let run := (scanning (Path.ofText []) [] settings Definition.scanAll).save event w
    let run' := (scanning (Path.ofText []) [] settings reversed).save event w
    let e : Engine Workspace := onDisk (Path.ofText []) [] settings
    let s : Snapshot := { path, text }
    (∃ both, (pushInto e ['A'] [['t']] s >>= pushInto e ['B'] [['u']]) = .ok both ∧
      (pushInto e ['B'] [['u']] s >>= pushInto e ['A'] [['t']]) = .ok both) ∧
      run'.2.disk = run.2.disk ∧
      (∃ outcome, run.1 = .ok outcome ∧
        outcome.passes.map Pass.component = [['A'], ['B'], ['A'], ['A']]) ∧
      ∃ outcome, run'.1 = .ok outcome ∧
        outcome.passes.map Pass.component = [['B'], ['A'], ['A'], ['A']] := by
  intro settings text path w event reversed run run' e s
  have hplaceholder : ∀ c ∈ settings.placeholder, c ≠ '<' ∧ c ≠ '>' := by simp [settings]
  have hscanned : Definition.scanAll text =
      [⟨['A'], .function, " t ".toList, 12⟩, ⟨['B'], .arrow, " u ".toList, 33⟩] := by decide +kernel
  have hopened : e.snapshots w = .ok [s] := by decide +kernel
  have hapart : Tag.Apart ['A'] ['B'] text := by
    unfold Tag.Apart
    decide +kernel
  have hunrelated : ∀ documents, e.snapshots w = .ok documents →
      Unrelated (Definition.scanAll text) documents := by
    intro documents hdocuments
    obtain rfl := Except.ok.inj (hopened.symm.trans hdocuments)
    rw [hscanned]
    refine ⟨by decide, by decide +kernel, by decide, fun s hs => ?_⟩
    rw [List.mem_singleton.1 hs, List.pairwise_pair]
    exact hapart
  have hcomponents {result : Except Halt Outcome} {names : List Text} (h : (match result with
      | .ok outcome => decide (outcome.passes.map Pass.component = names)
      | .error _ => false) = true) :
      ∃ outcome, result = .ok outcome ∧ outcome.passes.map Pass.component = names := by
    cases result with
    | error halt => cases h
    | ok outcome => exact ⟨outcome, rfl, of_decide_eq_true h⟩
  obtain ⟨hboth, hsave⟩ := pushes_commute settings hplaceholder
  obtain ⟨-, hdisk, -⟩ := hsave (Path.ofText []) [] w event Definition.scanAll reversed
    ⟨nofun, fun _ _ => List.not_mem_nil⟩ (List.reverse_perm _).symm hunrelated
  exact ⟨hboth Workspace e.host s ['A'] ['B'] [['t']] [['u']] (by decide) (by decide) (by decide)
    (by decide) hapart, hdisk (by decide), hcomponents (by decide +kernel),
    hcomponents (by decide +kernel)⟩

end Engine

end Sync

end PropAccord
