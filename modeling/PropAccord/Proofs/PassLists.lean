import Mathlib.Data.List.Forall2
import PropAccord.Proofs.Completion
import PropAccord.Proofs.Passes

/-!
# The passes of a save

A save that is not skipped reports its passes in a fixed order. Every component that the saved text
defines with props has its props pushed once, in the order of the first such definitions. Then the
first usage of every component that is used with props is taken to the definition, and only a pass
that was carried out is followed by one that pushes the widened list. Which files there are, what the
host answers and whether it can write decides over the passes themselves, not over their order. No
component is taken up twice by calls that share what has been seen.
-/

namespace PropAccord.Sync

set_option autoImplicit false

/-! ## The first of each name -/

section

variable {α : Type} (key : α → Text) (counts : α → Prop) [DecidablePred counts]

/-- Of the members that count, the first of each key that has not been seen. -/
def firstsBy (seen : List Text) : List α → List α
  | [] => []
  | a :: rest =>
    if counts a ∧ ¬ seen.contains (key a) then a :: firstsBy (key a :: seen) rest
    else firstsBy seen rest

variable {counts} in
theorem key_of_find? {l : List α} {name : Text} {a : α}
    (h : l.find? (fun b => key b = name ∧ counts b) = some a) : key a = name := by
  have hfound := List.find?_some h
  rw [decide_eq_true_eq] at hfound
  exact hfound.1

/-- The keys of the members that count, each once and with the first member that has it. -/
theorem forall₂_firstsBy (seen : List Text) (l : List α) :
    List.Forall₂ (fun name a => name ∉ seen ∧ l.find? (fun b => key b = name ∧ counts b) = some a)
      (((l.filter counts).map key).filter (· ∉ seen)).eraseDups (firstsBy key counts seen l) := by
  induction l generalizing seen with
  | nil => exact .nil
  | cons a rest ih =>
    -- A member that is passed over is not the first one of a key that has not been seen.
    have hbehind {name : Text} {b : α} (hother : ¬ (key a = name ∧ counts a))
        (hb : rest.find? (fun b => key b = name ∧ counts b) = some b) :
        (a :: rest).find? (fun b => key b = name ∧ counts b) = some b := by
      rw [List.find?_cons_of_neg (by simpa using hother)]
      exact hb
    rw [firstsBy]
    by_cases hcounts : counts a
    · rw [List.filter_cons_of_pos (by simpa using hcounts), List.map_cons]
      by_cases hseen : key a ∈ seen
      · rw [List.filter_cons_of_neg (by simpa using hseen),
          if_neg (fun h => h.2 (List.contains_iff_mem.2 hseen))]
        refine (ih seen).imp fun name b hb => ⟨hb.1, hbehind ?_ hb.2⟩
        rintro ⟨rfl, -⟩
        exact hb.1 hseen
      · rw [List.filter_cons_of_pos (by simpa using hseen),
          if_pos ⟨hcounts, mt List.contains_iff_mem.1 hseen⟩, List.eraseDups_cons,
          List.filter_filter]
        have hrest : ((rest.filter counts).map key).filter
            (fun name => (!name == key a) && decide (name ∉ seen)) =
            ((rest.filter counts).map key).filter (· ∉ key a :: seen) :=
          List.filter_congr fun name _ => by rw [Bool.eq_iff_iff]; simp [not_or]
        rw [hrest]
        refine .cons ⟨hseen, List.find?_cons_of_pos (by simpa using hcounts)⟩ ?_
        refine (ih (key a :: seen)).imp fun name b hb => ?_
        rw [List.mem_cons, not_or] at hb
        exact ⟨hb.1.2, hbehind (fun h => hb.1.1 h.1.symm) hb.2⟩
    · rw [List.filter_cons_of_neg (by simpa using hcounts), if_neg (fun h => hcounts h.1)]
      exact (ih seen).imp fun name b hb => ⟨hb.1, hbehind (fun h => hcounts h.2) hb.2⟩

end

variable {σ : Type}

/-- The components that are defined with props, in the order of their first such definitions. -/
def definedNames (definitions : List Definition) : List Text :=
  ((definitions.filter fun d => d.props ≠ []).map Definition.name).eraseDups

/-- The components that are used with props, in the order of their first such usages. -/
def usedNames (usages : List Usage) : List Text :=
  ((usages.filter fun u => u.props ≠ []).map Usage.component).eraseDups

theorem firstOfEach_eq (names : List Text) (definitions : List Definition) :
    Engine.firstOfEach names definitions =
      firstsBy Definition.name (fun d => d.props ≠ []) names definitions := by
  induction definitions generalizing names with
  | nil => rfl
  | cons d rest ih =>
    rw [Engine.firstOfEach, firstsBy, ih, ih]
    split <;> split <;> simp_all

theorem takenUp_eq (seen : Engine.Seen) (usages : List Usage) :
    Engine.takenUp seen usages =
      firstsBy Usage.component (fun u => u.props ≠ []) seen usages := by
  induction usages generalizing seen with
  | nil => rfl
  | cons usage rest ih =>
    rw [Engine.takenUp, firstsBy, Engine.seenAfter, Engine.takesUp, ih]
    split <;> split <;> simp_all

theorem forall₂_firstOfEach (definitions : List Definition) :
    List.Forall₂ (fun name d => definitions.find? (fun d => d.name = name ∧ d.props ≠ []) = some d)
      (definedNames definitions) (Engine.firstOfEach [] definitions) := by
  have h := forall₂_firstsBy Definition.name (fun d => d.props ≠ []) [] definitions
  rw [List.filter_eq_self.2 (by simp), ← firstOfEach_eq] at h
  exact h.imp fun _ _ hd => hd.2

theorem forall₂_takenUp (usages : List Usage) :
    List.Forall₂ (fun name u => usages.find? (fun u => u.component = name ∧ u.props ≠ []) = some u)
      (usedNames usages) (Engine.takenUp [] usages) := by
  have h := forall₂_firstsBy Usage.component (fun u => u.props ≠ []) [] usages
  rw [List.filter_eq_self.2 (by simp), ← takenUp_eq] at h
  exact h.imp fun _ _ hu => hu.2

/-! ## Passes by name -/

/-- The pass pushes the props of the first definition of the component that has any. -/
def PushesFirst (e : Engine σ) (definitions : List Definition) (name : Text) (p : Pass) : Prop :=
  ∃ d s, definitions.find? (fun d => d.name = name ∧ d.props ≠ []) = some d ∧
    Pushes e name d.props s p

/-- The passes take the first usage of the component that has props to the definition and, exactly
if that was carried out, push props to the tags of the component. -/
def TakesFirst (e : Engine σ) (usages : List Usage) (name : Text) (group : List Pass) : Prop :=
  ∃ usage p pushed s, usages.find? (fun u => u.component = name ∧ u.props ≠ []) = some usage ∧
    Takes e usage s p ∧ group = p :: pushed ∧
      if p.status = .applied then ∃ q props s₁, pushed = [q] ∧ Pushes e name props s₁ q
      else pushed = []

section

variable {e : Engine σ}

theorem pushesFirst_of_pushesEach {definitions firsts : List Definition} {names : List Text}
    (hfirsts : List.Forall₂ (fun name d =>
      definitions.find? (fun d => d.name = name ∧ d.props ≠ []) = some d) names firsts)
    {s s' : σ} {passes : List Pass} (h : Engine.PushesEach e s firsts passes s') :
    List.Forall₂ (PushesFirst e definitions) names passes := by
  induction h generalizing names with
  | nil s =>
    cases hfirsts
    exact .nil
  | @cons s _ _ d _ p _ hpushes _ _ ih =>
    cases hfirsts with
    | @cons name _ _ _ hd hrest =>
      have hname := key_of_find? Definition.name hd
      exact .cons ⟨d, s, hd, hname ▸ hpushes⟩ (ih hrest)

theorem takesFirst_of_takings {usages : List Usage} {usage : Usage} {name : Text}
    (hfirst : usages.find? (fun u => u.component = name ∧ u.props ≠ []) = some usage) {s s' : σ}
    {group : List Pass} (h : Takings e usage s group s') : TakesFirst e usages name group := by
  obtain rfl := key_of_find? Usage.component hfirst
  cases h with
  | alone htakes _ hstatus =>
    refine ⟨usage, _, [], s, hfirst, htakes, rfl, ?_⟩
    rw [if_neg hstatus]
  | handedOn htakes _ hstatus _ hpushes _ =>
    refine ⟨usage, _, [_], s, hfirst, htakes, rfl, ?_⟩
    rw [if_pos hstatus]
    exact ⟨_, _, _, rfl, hpushes⟩

theorem takesFirst_of_takesEach {usages firsts : List Usage} {names : List Text}
    (hfirsts : List.Forall₂ (fun name u =>
      usages.find? (fun u => u.component = name ∧ u.props ≠ []) = some u) names firsts)
    {s s' : σ} {groups : List (List Pass)} (h : Engine.TakesEach e s firsts groups s') :
    List.Forall₂ (TakesFirst e usages) names groups := by
  induction h generalizing names with
  | nil s =>
    cases hfirsts
    exact .nil
  | cons htakings _ ih =>
    cases hfirsts with
    | cons hfirst hrest => exact .cons (takesFirst_of_takings hfirst htakings) (ih hrest)

/-- Of the passes that come of the usages, those that take up a component are one for each name. -/
theorem components_of_takesFirst {usages : List Usage} {names : List Text}
    {groups : List (List Pass)} (h : List.Forall₂ (TakesFirst e usages) names groups) :
    (groups.flatten.filter fun p => p.direction = .usageToDefinition).map Pass.component =
      names := by
  induction h with
  | nil => rfl
  | @cons name group names groups hgroup _ ih =>
    obtain ⟨usage, p, pushed, s, hfirst, htakes, rfl, hpushed⟩ := hgroup
    have hcomponent := htakes.component.trans (key_of_find? Usage.component hfirst)
    have hnone : (pushed.filter fun p => p.direction = .usageToDefinition) = [] := by
      split at hpushed
      · obtain ⟨q, props, s₁, rfl, hq⟩ := hpushed
        simp [hq.direction]
      · rw [hpushed]
        rfl
    rw [List.flatten_cons, List.filter_append, List.map_append, ih,
      List.filter_cons_of_pos (by simp [htakes.direction]), hnone, ← hcomponent]
    rfl

theorem filter_of_pushesFirst {definitions : List Definition} {names : List Text}
    {passes : List Pass} (h : List.Forall₂ (PushesFirst e definitions) names passes) :
    (passes.filter fun p => p.direction = .usageToDefinition) = [] := by
  induction h with
  | nil => rfl
  | cons hp _ ih =>
    obtain ⟨d, s, -, hpushes⟩ := hp
    rw [List.filter_cons_of_neg (by simp [hpushes.direction]), ih]

end

/-! ## Calls that share what has been seen -/

/-- The component and the result of each call for a usage, from calls that share what has been seen.
Each of them may come from an engine of its own and finds whatever state it finds. -/
def sharing (seen : Engine.Seen) :
    List (Engine σ × Usage × σ) → List (Text × Except Halt (List Pass))
  | [] => []
  | (e, usage, s) :: rest =>
    (usage.component, (e.syncUsage seen usage s).1) :: sharing (Engine.seenAfter seen usage) rest

theorem mem_seenAfter {seen : Engine.Seen} {name : Text} (h : name ∈ seen) (usage : Usage) :
    name ∈ Engine.seenAfter seen usage := by
  rw [Engine.seenAfter]
  split
  · exact List.mem_cons_of_mem usage.component h
  · exact h

/-- A call for a component that has been seen comes to nothing. -/
theorem sharing_of_mem {seen : Engine.Seen} (calls : List (Engine σ × Usage × σ)) :
    ∀ call ∈ sharing seen calls, call.1 ∈ seen → call.2 = .ok [] := by
  induction calls generalizing seen with
  | nil => exact nofun
  | cons call rest ih =>
    obtain ⟨e, usage, s⟩ := call
    rw [sharing, List.forall_mem_cons]
    refine ⟨fun hseen => ?_, fun call hcall hseen => ih call hcall (mem_seenAfter hseen usage)⟩
    have hskips : ¬ Engine.takesUp seen usage = true := by
      simp [Engine.takesUp, show usage.component ∈ seen from hseen]
    rw [Engine.syncUsage, if_neg hskips]
    rfl

/-- Of the calls for one component, at most one comes to anything. -/
theorem pairwise_sharing (seen : Engine.Seen) (calls : List (Engine σ × Usage × σ)) :
    (sharing seen calls).Pairwise fun call call' => call.1 = call'.1 →
      ∀ passes passes', call.2 = .ok passes → call'.2 = .ok passes' → passes = [] ∨ passes' = [] := by
  induction calls generalizing seen with
  | nil => exact .nil
  | cons call rest ih =>
    obtain ⟨e, usage, s⟩ := call
    rw [sharing]
    refine .cons ?_ (ih _)
    intro call' hcall' hname passes passes' hpasses hpasses'
    by_cases htakes : Engine.takesUp seen usage = true
    · have hseen : call'.1 ∈ Engine.seenAfter seen usage := by
        rw [Engine.seenAfter, if_pos htakes, ← hname]
        exact List.mem_cons_self
      rw [sharing_of_mem rest call' hcall' hseen] at hpasses'
      exact Or.inr (Except.ok.inj hpasses').symm
    · simp only [Engine.syncUsage, if_neg htakes] at hpasses
      exact Or.inl (Except.ok.inj hpasses).symm

/-! ## The passes of a save in order -/

theorem filter_scan_usages (text : Text) :
    ((Usage.scan text).filter fun u => u.props ≠ []) = Usage.scan text := by
  rw [List.filter_eq_self]
  intro u hu
  obtain ⟨tag, htag, rfl⟩ := List.mem_map.1 hu
  simpa using (List.mem_filter.1 htag).2

/-- A save in an accepted language pushes the props of each defined component once, then takes up each
used component once, with a pass over its tags behind exactly those that were carried out. Supported
languages have the built-in scanner, which finds only usages with props, so no component that it finds
is left out. Calls for usages that share what has been seen come to something at most once for each
component. -/
theorem save_passes_in_order {e : Engine σ} {event : SaveEvent} {s s' : σ} {outcome : Outcome}
    (hsave : e.save event s = (.ok outcome, s'))
    (haccepts : e.settings.accepts event.language = true) :
    (∀ scanner, e.scannerForLanguage? event.language = some scanner →
      outcome.skipped = false ∧
        ∃ pushed groups, outcome.passes = pushed ++ groups.flatten ∧
          List.Forall₂ (PushesFirst e (scanner.definitions event.text))
            (definedNames (scanner.definitions event.text)) pushed ∧
          List.Forall₂ (TakesFirst e (scanner.usages event.text))
            (usedNames (scanner.usages event.text)) groups) ∧
      (e.scanner = none → e.registry = .standard → e.settings.languages ⊆ Language.supported →
        e.scannerForLanguage? event.language = some .lexical) ∧
      (∀ text, usedNames (Scanner.lexical.usages text) =
        ((Scanner.lexical.usages text).map Usage.component).eraseDups) ∧
      ((outcome.passes.filter fun p => p.direction = .usageToDefinition).map
        Pass.component).Nodup ∧
      ∀ (seen : Engine.Seen) (calls : List (Engine σ × Usage × σ)),
        (sharing seen calls).Pairwise fun call call' => call.1 = call'.1 →
          ∀ passes passes', call.2 = .ok passes → call'.2 = .ok passes' →
            passes = [] ∨ passes' = [] := by
  have hends := Engine.ends_save e event s
  rw [hsave] at hends
  have hbuiltIn (hnone : e.scanner = none) (hstandard : e.registry = .standard)
      (hlanguages : e.settings.languages ⊆ Language.supported) :
      e.scannerForLanguage? event.language = some .lexical := by
    rw [Engine.scannerForLanguage?, hnone, hstandard]
    exact Engine.forLanguage?_of_accepts hlanguages haccepts
  have hused (text : Text) : usedNames (Scanner.lexical.usages text) =
      ((Scanner.lexical.usages text).map Usage.component).eraseDups :=
    congrArg (fun usages => (List.map Usage.component usages).eraseDups) (filter_scan_usages text)
  cases hends with
  | skipped hskips =>
    refine ⟨fun scanner hscanner => ?_, hbuiltIn, hused, .nil, pairwise_sharing⟩
    rw [haccepts, hscanner] at hskips
    simp at hskips
  | @ran scanner pushed groups s₁ _ _ hscanner hpushed htaken =>
    have hfirst := pushesFirst_of_pushesEach (forall₂_firstOfEach _) hpushed
    have hthen := takesFirst_of_takesEach (forall₂_takenUp _) htaken
    refine ⟨fun scanner' hscanner' => ?_, hbuiltIn, hused, ?_, pairwise_sharing⟩
    · obtain rfl := Option.some.inj (hscanner.symm.trans hscanner')
      exact ⟨rfl, pushed, groups, rfl, hfirst, hthen⟩
    · rw [List.filter_append, filter_of_pushesFirst hfirst, List.nil_append,
        components_of_takesFirst hthen]
      exact Props.nodup_eraseDups _

/-- `A` is defined twice, `B` is used twice; the first question is declined, and both definitions are
widened. -/
theorem save_passes_in_order_of_repeated :
    let text := "function A({t})function A({v})function B({})<B u=1><A w=2><B x=3>".toList
    let path := Path.ofText "a.tsx".toList
    let disk := (Disk.empty []).write path (Utf8.encode text)
    let w : Workspace := { disk, answers := [{ reply := .cancel }, {}, { reply := .nothing }] }
    let e : Engine Workspace := { host := Workspace.host (Path.ofText []) [] .scripted }
    let run := e.save ⟨path, "typescriptreact".toList, text⟩ w
    ∃ outcome, run.1 = .ok outcome ∧
      outcome.passes.map (fun p => (p.component, p.direction, p.status)) =
        [(['A'], .definitionToUsages, .declined), (['B'], .usageToDefinition, .applied),
          (['B'], .definitionToUsages, .declined), (['A'], .usageToDefinition, .applied),
          (['A'], .definitionToUsages, .applied)] ∧
      ∃ pushed groups, outcome.passes = pushed ++ groups.flatten ∧
        List.Forall₂ (PushesFirst e (Definition.scanAll text)) [['A']] pushed ∧
        List.Forall₂ (TakesFirst e (Usage.scan text)) [['B'], ['A']] groups := by
  intro text path disk w e run
  have hstatuses : (match run.1 with
      | .ok o => o.passes.map (fun p => (p.component, p.direction, p.status)) =
        [(['A'], .definitionToUsages, .declined), (['B'], .usageToDefinition, .applied),
          (['B'], .definitionToUsages, .declined), (['A'], .usageToDefinition, .applied),
          (['A'], .definitionToUsages, .applied)]
      | .error _ => false) = true := by decide +kernel
  have hdefined : definedNames (Definition.scanAll text) = [['A']] := by decide +kernel
  have hused : usedNames (Usage.scan text) = [['B'], ['A']] := by decide +kernel
  rcases hrun : run with ⟨halt | outcome, w'⟩
  · rw [hrun] at hstatuses
    cases hstatuses
  · rw [hrun] at hstatuses
    have hshape := save_passes_in_order hrun (by decide +kernel)
    obtain ⟨-, pushed, groups, hpasses, hpushed, htaken⟩ :=
      hshape.1 .lexical (hshape.2.1 rfl rfl (List.Subset.refl _))
    exact ⟨outcome, rfl, of_decide_eq_true hstatuses, pushed, groups, hpasses,
      hdefined ▸ hpushed, hused ▸ htaken⟩

end PropAccord.Sync
