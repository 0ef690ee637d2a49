import PropAccord.Proofs.Lists
import PropAccord.Sync.Engine

/-!
# What passes do to their host

A pass is drawn up from the documents as they are when it begins: it pushes props to the tags of a
component, or takes the props of a usage to the definition. A pass that has nothing to do leaves the
state of its host alone. Every other pass asks one question; its plan is carried out if the answer is
the label that accepts and in no other case, and notice is given once the tags of a component have been
edited. A save is a trace of such passes in the order of its report, also when it stops: then what is
left of the pass it stops in follows the trace. Nothing is assumed of the host here.
-/

namespace PropAccord.Sync

set_option autoImplicit false

variable {σ : Type}

/-- The question of a pass. -/
def Pass.prompt (p : Pass) : Prompt :=
  match p.direction with
  | .definitionToUsages => usagesPrompt p.component
  | .usageToDefinition => definitionPrompt p.component p.added

/-- The pass has put its question. -/
def Pass.asks (p : Pass) : Prop :=
  p.status = .declined ∨ p.status = .applied ∨ p.status = .applyFailed

instance (p : Pass) : Decidable p.asks := inferInstanceAs (Decidable (_ ∨ _))

/-- How a pass takes a host from one state to another. -/
inductive Performed (host : Host σ) : σ → Pass → σ → Prop where
  | idle {s : σ} {p : Pass} : ¬ p.asks → Performed host s p s
  | declined {s s' : σ} {p : Pass} {choice : Option Text} : p.status = .declined →
      host.ask p.prompt s = (.ok choice, s') → choice ≠ some p.prompt.accept →
      Performed host s p s'
  | failed {s s₁ s' : σ} {p : Pass} : p.status = .applyFailed →
      host.ask p.prompt s = (.ok (some p.prompt.accept), s₁) →
      host.applyPlan p.plan s₁ = (.ok false, s') → Performed host s p s'
  | widened {s s₁ s' : σ} {p : Pass} : p.status = .applied → p.direction = .usageToDefinition →
      host.ask p.prompt s = (.ok (some p.prompt.accept), s₁) →
      host.applyPlan p.plan s₁ = (.ok true, s') → Performed host s p s'
  | completed {s s₁ s₂ s' : σ} {p : Pass} : p.status = .applied →
      p.direction = .definitionToUsages →
      host.ask p.prompt s = (.ok (some p.prompt.accept), s₁) →
      host.applyPlan p.plan s₁ = (.ok true, s₂) →
      host.notify (syncedMessage p.component) s₂ = (.ok (), s') → Performed host s p s'

/-- How a pass that does not end takes a host from one state to another. -/
inductive Interrupted (host : Host σ) : σ → σ → Prop where
  | reading {s : σ} : Interrupted host s s
  | asking {s s' : σ} {p : Pass} {h : Halt} : host.ask p.prompt s = (.error h, s') →
      Interrupted host s s'
  | applying {s s₁ s' : σ} {p : Pass} {h : Halt} :
      host.ask p.prompt s = (.ok (some p.prompt.accept), s₁) →
      host.applyPlan p.plan s₁ = (.error h, s') → Interrupted host s s'
  | notifying {s s₁ s₂ s' : σ} {p : Pass} {h : Halt} :
      host.ask p.prompt s = (.ok (some p.prompt.accept), s₁) →
      host.applyPlan p.plan s₁ = (.ok true, s₂) →
      host.notify (syncedMessage p.component) s₂ = (.error h, s') → Interrupted host s s'

/-- Passes one after the other, each from the state that the one before has left. -/
inductive Trace (R : σ → Pass → σ → Prop) : σ → List Pass → σ → Prop where
  | nil (s : σ) : Trace R s [] s
  | cons {s s₁ s' : σ} {p : Pass} {passes : List Pass} : R s p s₁ → Trace R s₁ passes s' →
      Trace R s (p :: passes) s'

namespace Trace

variable {R R' : σ → Pass → σ → Prop} {s s₁ s' : σ} {passes others : List Pass}

theorem single {p : Pass} (h : R s p s') : Trace R s [p] s' := .cons h (.nil s')

theorem append (h : Trace R s passes s₁) (h' : Trace R s₁ others s') :
    Trace R s (passes ++ others) s' := by
  induction h with
  | nil s => exact h'
  | cons hp _ ih => exact .cons hp (ih h')

/-- Passes that ask nothing do nothing. -/
theorem eq_of_idle {host : Host σ} (h : Trace (Performed host) s passes s')
    (hidle : ∀ p ∈ passes, ¬ p.asks) : s' = s := by
  induction h with
  | nil s => rfl
  | @cons s s₁ s' p passes hp _ ih =>
    have hfirst : s₁ = s := by
      have hnot := hidle p List.mem_cons_self
      cases hp with
      | idle _ => rfl
      | declined hstatus => exact absurd (Or.inl hstatus) hnot
      | failed hstatus => exact absurd (Or.inr (Or.inr hstatus)) hnot
      | widened hstatus => exact absurd (Or.inr (Or.inl hstatus)) hnot
      | completed hstatus => exact absurd (Or.inr (Or.inl hstatus)) hnot
    rw [ih fun q hq => hidle q (List.mem_cons_of_mem p hq), hfirst]

theorem imp (h : Trace R s passes s') (hR : ∀ s p s', R s p s' → R' s p s') :
    Trace R' s passes s' := by
  induction h with
  | nil s => exact .nil s
  | cons hp _ ih => exact .cons (hR _ _ _ hp) ih

end Trace

/-- A run from a state is the trace of its passes, or stops in a pass behind a trace. -/
def Traced {α : Type} (host : Host σ) (passes : α → List Pass) (s : σ) :
    Except Halt α × σ → Prop
  | (.ok a, s') => Trace (Performed host) s (passes a) s'
  | (.error _, s') => ∃ before s₁, Trace (Performed host) s before s₁ ∧ Interrupted host s₁ s'

namespace Traced

variable {α : Type} {host : Host σ} {s : σ}

theorem eq_of_idle {f : α → List Pass} {r : Except Halt α × σ} (h : Traced host f s r) {a : α}
    {s' : σ} (hr : r = (.ok a, s')) (hidle : ∀ p ∈ f a, ¬ p.asks) : s' = s := by
  rw [hr] at h
  exact Trace.eq_of_idle h hidle

end Traced

section

variable {τ : Type} {host : Host σ} {view : σ → τ}

/-- The host declines every question of a pass, and what is seen of its state stays the same. -/
def Declines (host : Host σ) (view : σ → τ) : Prop :=
  ∀ (p : Pass) (s : σ), ∃ choice s', host.ask p.prompt s = (.ok choice, s') ∧
    choice ≠ some p.prompt.accept ∧ view s' = view s

theorem Declines.not_accepts (h : Declines host view) {p : Pass} {s s₁ : σ} :
    host.ask p.prompt s ≠ (.ok (some p.prompt.accept), s₁) := by
  intro hask
  obtain ⟨choice, s', hask', hne, -⟩ := h p s
  cases hask.symm.trans hask'
  exact hne rfl

theorem Declines.performed (h : Declines host view) {s s' : σ} {p : Pass}
    (hp : Performed host s p s') : view s' = view s := by
  cases hp with
  | idle _ => rfl
  | declined _ hask _ =>
    obtain ⟨choice, s₁, hask', -, hview⟩ := h p s
    cases hask.symm.trans hask'
    exact hview
  | failed _ hask _ => exact absurd hask h.not_accepts
  | widened _ _ hask _ => exact absurd hask h.not_accepts
  | completed _ _ hask _ _ => exact absurd hask h.not_accepts

theorem Declines.trace (h : Declines host view) {s s' : σ} {passes : List Pass}
    (ht : Trace (Performed host) s passes s') : view s' = view s := by
  induction ht with
  | nil s => rfl
  | cons hp _ ih => exact ih.trans (h.performed hp)

theorem Declines.interrupted (h : Declines host view) {s s' : σ} (hs : Interrupted host s s') :
    view s' = view s := by
  cases hs with
  | reading => rfl
  | asking hask =>
    rename_i p halt
    obtain ⟨choice, s₁, hask', -, -⟩ := h p s
    cases hask.symm.trans hask'
  | applying hask _ => exact absurd hask h.not_accepts
  | notifying hask _ _ => exact absurd hask h.not_accepts

/-- Where every question is declined, a run changes nothing that is seen. -/
theorem Declines.traced {α : Type} (h : Declines host view) {f : α → List Pass} {s : σ}
    {r : Except Halt α × σ} (hr : Traced host f s r) : view r.2 = view s := by
  obtain ⟨result, s'⟩ := r
  cases result with
  | ok a => exact h.trace hr
  | error halt =>
    obtain ⟨before, s₁, htrace, hstop⟩ := hr
    exact (h.interrupted hstop).trans (h.trace htrace)

end

theorem run_bind_of_ok {α β : Type} {m : Run σ α} {s s' : σ} {a : α} (h : m s = (.ok a, s'))
    (k : α → Run σ β) : (m >>= k) s = k a s' := by
  change Run.andThen m k s = _
  rw [Run.andThen, h]

theorem run_bind_of_error {α β : Type} {m : Run σ α} {s s' : σ} {halt : Halt}
    (h : m s = (.error halt, s')) (k : α → Run σ β) : (m >>= k) s = (.error halt, s') := by
  change Run.andThen m k s = _
  rw [Run.andThen, h]

theorem tryRead_eq {α : Type} {f : σ → Except Halt α} {s : σ} {result : Except Halt α}
    (h : f s = result) : Run.tryRead f s = (result, s) := by
  rw [Run.tryRead, h]

/-! ## Documents and plans -/

namespace Engine

/-- The scanner for a document. -/
def scannerOf (e : Engine σ) (p : Path) : Scanner :=
  e.scanner.getD ((e.registry.forSuffix? p.suffix).getD e.registry.default)

theorem scannerFor_eq (e : Engine σ) (p : Path) : e.scannerFor p = .ok (e.scannerOf p) := by
  rw [scannerFor, scannerOf]
  cases e.scanner <;> rfl

/-- What is planned for the tags of a component in a document, if anything is. -/
def filePlan? (e : Engine σ) (name : Text) (props : List Text) (s : Snapshot) : Option FilePlan :=
  let insertions :=
    tagInsertions e.settings.placeholder props ((e.scannerOf s.path).findTags s.text name)
  if insertions.isEmpty then none else some { snapshot := s, insertions }

theorem planFiles_eq (e : Engine σ) (name : Text) (props : List Text) (snapshots : List Snapshot) :
    e.planFiles name props snapshots = .ok (snapshots.filterMap (e.filePlan? name props)) := by
  induction snapshots with
  | nil => rfl
  | cons s rest ih =>
    rw [planFiles, scannerFor_eq, ih, List.filterMap_cons, filePlan?]
    simp only [bind, Except.bind, pure, Except.pure]
    split <;> rfl

theorem planUsages_eq (e : Engine σ) (name : Text) (props : List Text) (s : σ) :
    e.planUsages name props s =
      (e.snapshots s).map fun snapshots => ⟨snapshots.filterMap (e.filePlan? name props)⟩ := by
  rw [planUsages]
  cases e.snapshots s with
  | error h => rfl
  | ok snapshots =>
    simp only [bind, Except.bind, planFiles_eq]
    rfl

/-- The definition of a component in a document. -/
def locatedIn? (e : Engine σ) (name : Text) (s : Snapshot) : Option Located :=
  ((e.scannerOf s.path).findDefinition? s.text name).map fun d => { snapshot := s, definition := d }

theorem locateIn_eq (e : Engine σ) (name : Text) (snapshots : List Snapshot) :
    e.locateIn name snapshots = .ok (snapshots.findSome? (e.locatedIn? name)) := by
  induction snapshots with
  | nil => rfl
  | cons s rest ih =>
    rw [locateIn, scannerFor_eq, List.findSome?_cons, locatedIn?]
    simp only [bind, Except.bind]
    cases (e.scannerOf s.path).findDefinition? s.text name with
    | none => exact ih
    | some d => rfl

theorem locate_eq (e : Engine σ) (name : Text) (s : σ) :
    e.locate name s = (e.snapshots s).map fun snapshots => snapshots.findSome? (e.locatedIn? name) := by
  rw [locate]
  cases e.snapshots s with
  | error h => rfl
  | ok snapshots => exact locateIn_eq e name snapshots

end Engine

theorem plan_widening_of_isEmpty {mode : WidenMode} {s : Snapshot} {d : Definition}
    {used : List Text} (h : (widening mode s d used).added.isEmpty = true) :
    (widening mode s d used).plan = {} := by
  unfold widening at h ⊢
  simp only at h ⊢
  split
  · rfl
  · rename_i hne
    rw [if_neg hne] at h
    exact absurd h hne

theorem eq_error_of_map {α β : Type} {f : α → β} {r : Except Halt α} {h : Halt}
    (hr : r.map f = .error h) : r = .error h := by
  cases r with
  | error h' => exact congrArg Except.error (Except.error.inj hr)
  | ok a => cases hr

/-- The pass pushes props to the tags of a component: its plan is for the documents of the state. -/
structure Pushes (e : Engine σ) (name : Text) (props : List Text) (s : σ) (p : Pass) : Prop where
  component : p.component = name
  direction : p.direction = .definitionToUsages
  added : p.added = []
  planned : ∃ plan, e.planUsages name props s = .ok plan ∧
    if plan.isEmpty then p.status = .noChanges ∧ p.plan = {} else p.asks ∧ p.plan = plan

/-- The pass takes the props of a usage to the definition of its component: its plan is for the
definition that is found in the state. -/
structure Takes (e : Engine σ) (usage : Usage) (s : σ) (p : Pass) : Prop where
  component : p.component = usage.component
  direction : p.direction = .usageToDefinition
  planned : ∃ located, e.locate usage.component s = .ok located ∧
    match located with
    | none => p.status = .noDefinition ∧ p.plan = {} ∧ p.added = []
    | some l =>
      let w := widening e.settings.widenMode l.snapshot l.definition usage.props
      p.plan = w.plan ∧ p.added = w.added ∧ if w.added.isEmpty then p.status = .inSync else p.asks

/-- The pass is drawn up in the state. -/
def Drawn (e : Engine σ) (s : σ) (p : Pass) : Prop :=
  (∃ name props, Pushes e name props s p) ∨ ∃ usage, Takes e usage s p

/-- What is planned for a document: insertions for the tags of a component, or a replacement for the
parameter list of its definition. -/
inductive Plans (e : Engine σ) (s : Snapshot) : FilePlan → Prop where
  | tags {name : Text} {props : List Text} {f : FilePlan} : e.filePlan? name props s = some f →
      Plans e s f
  | parameters {name text : Text} {d : Definition} :
      (e.scannerOf s.path).findDefinition? s.text name = some d →
      Plans e s { snapshot := s, replacements := [⟨d.start, d.stop, text⟩] }

theorem snapshot_of_filePlan? {e : Engine σ} {name : Text} {props : List Text} {s : Snapshot}
    {f : FilePlan} (h : e.filePlan? name props s = some f) : f.snapshot = s := by
  rw [Engine.filePlan?] at h
  split at h
  · cases h
  · rw [← Option.some.inj h]

/-- A pass plans for documents of the state that it is drawn up in, for each of them once. -/
theorem Drawn.planned {e : Engine σ} {s : σ} {p : Pass} (h : Drawn e s p) :
    ∃ snapshots, e.snapshots s = .ok snapshots ∧
      (p.plan.files.map FilePlan.snapshot).Sublist snapshots ∧
      ∀ f ∈ p.plan.files, Plans e f.snapshot f := by
  rcases h with ⟨name, props, hpushes⟩ | ⟨usage, htakes⟩
  · obtain ⟨plan, hplan, hif⟩ := hpushes.planned
    rw [Engine.planUsages_eq] at hplan
    cases hsnapshots : e.snapshots s with
    | error halt =>
      rw [hsnapshots] at hplan
      cases hplan
    | ok snapshots =>
      rw [hsnapshots] at hplan
      obtain rfl := Except.ok.inj hplan
      refine ⟨snapshots, rfl, ?_⟩
      split at hif
      · rw [hif.2]
        exact ⟨List.nil_sublist snapshots, nofun⟩
      · rw [hif.2]
        refine ⟨map_filterMap_sublist (fun _ _ => snapshot_of_filePlan?) snapshots, ?_⟩
        intro f hf
        obtain ⟨snapshot, -, hplanned⟩ := List.mem_filterMap.1 hf
        exact .tags (snapshot_of_filePlan? hplanned ▸ hplanned)
  · obtain ⟨located, hlocated, hcases⟩ := htakes.planned
    rw [Engine.locate_eq] at hlocated
    cases hsnapshots : e.snapshots s with
    | error halt =>
      rw [hsnapshots] at hlocated
      cases hlocated
    | ok snapshots =>
      rw [hsnapshots] at hlocated
      refine ⟨snapshots, rfl, ?_⟩
      cases located with
      | none =>
        rw [hcases.2.1]
        exact ⟨List.nil_sublist snapshots, nofun⟩
      | some l =>
        obtain ⟨snapshot, hmem, hl⟩ := List.exists_of_findSome?_eq_some (Except.ok.inj hlocated)
        rw [Engine.locatedIn?, Option.map_eq_some_iff] at hl
        obtain ⟨d, hd, rfl⟩ := hl
        rw [hcases.1, widening]
        simp only
        split
        · exact ⟨List.nil_sublist snapshots, nofun⟩
        · refine ⟨List.singleton_sublist.2 hmem, ?_⟩
          intro f hf
          rw [List.mem_singleton.1 hf]
          exact .parameters hd

/-- A pass of the engine, from the state that it is drawn up in. -/
structure Step (e : Engine σ) (s : σ) (p : Pass) (s' : σ) : Prop where
  drawn : Drawn e s p
  performed : Performed e.host s p s'

/-- How a pass of the engine stops, and the reason. -/
inductive Halted (e : Engine σ) : σ → Halt → σ → Prop where
  | reading {s : σ} {h : Halt} : e.snapshots s = .error h → Halted e s h s
  | asking {s s' : σ} {p : Pass} {h : Halt} : e.host.ask p.prompt s = (.error h, s') →
      Halted e s h s'
  | applying {s s₁ s' : σ} {p : Pass} {h : Halt} : Drawn e s p →
      e.host.ask p.prompt s = (.ok (some p.prompt.accept), s₁) →
      e.host.applyPlan p.plan s₁ = (.error h, s') → Halted e s h s'
  | notifying {s s₁ s₂ s' : σ} {p : Pass} {h : Halt} :
      e.host.ask p.prompt s = (.ok (some p.prompt.accept), s₁) →
      e.host.applyPlan p.plan s₁ = (.ok true, s₂) →
      e.host.notify (syncedMessage p.component) s₂ = (.error h, s') → Halted e s h s'

theorem Halted.interrupted {e : Engine σ} {s s' : σ} {h : Halt} (hs : Halted e s h s') :
    Interrupted e.host s s' := by
  cases hs with
  | reading _ => exact .reading
  | asking hask => exact .asking hask
  | applying _ hask happly => exact .applying hask happly
  | notifying hask happly hnotify => exact .notifying hask happly hnotify

/-- The passes that come of a usage: one that takes its props to the definition and, if that was
carried out, one that pushes the widened list. -/
inductive Takings (e : Engine σ) (usage : Usage) : σ → List Pass → σ → Prop where
  | alone {s s' : σ} {p : Pass} : Takes e usage s p → Performed e.host s p s' →
      p.status ≠ .applied → Takings e usage s [p] s'
  | handedOn {s s₁ s' : σ} {p q : Pass} {l : Located} : Takes e usage s p →
      Performed e.host s p s₁ → p.status = .applied →
      e.locate usage.component s = .ok (some l) →
      Pushes e usage.component
        (widening e.settings.widenMode l.snapshot l.definition usage.props).merged s₁ q →
      Performed e.host s₁ q s' → Takings e usage s [p, q] s'

theorem Takings.trace {e : Engine σ} {usage : Usage} {s s' : σ} {passes : List Pass}
    (h : Takings e usage s passes s') : Trace (Step e) s passes s' := by
  cases h with
  | alone htakes hperformed _ => exact .single ⟨Or.inr ⟨_, htakes⟩, hperformed⟩
  | handedOn htakes hperformed _ _ hpushes hperformed' =>
    exact .cons ⟨Or.inr ⟨_, htakes⟩, hperformed⟩
      (.single ⟨Or.inl ⟨_, _, hpushes⟩, hperformed'⟩)

/-! ## Runs of passes -/

/-- What is said of the end of a run: of its result, or of the reason for which it stops. -/
def Ends {α : Type} (ended : α → σ → Prop) (stopped : Halt → σ → Prop) :
    Except Halt α × σ → Prop
  | (.ok a, s') => ended a s'
  | (.error h, s') => stopped h s'

namespace Ends

variable {α β : Type} {stopped : Halt → σ → Prop}

theorem bind {m : Run σ α} {k : α → Run σ β} {s : σ} {P : α → σ → Prop} {Q : β → σ → Prop}
    (hm : Ends P stopped (m s)) (hk : ∀ a s', P a s' → Ends Q stopped (k a s')) :
    Ends Q stopped ((m >>= k) s) := by
  rcases hrun : m s with ⟨h | a, s'⟩
  · rw [run_bind_of_error hrun]
    rw [hrun] at hm
    exact hm
  · rw [run_bind_of_ok hrun]
    rw [hrun] at hm
    exact hk a s' hm

theorem imp {P Q : α → σ → Prop} {stopped' : Halt → σ → Prop} {r : Except Halt α × σ}
    (h : Ends P stopped r) (hP : ∀ a s', P a s' → Q a s')
    (hstopped : ∀ h s', stopped h s' → stopped' h s') : Ends Q stopped' r := by
  obtain ⟨h' | a, s'⟩ := r
  · exact hstopped h' s' h
  · exact hP a s' h

end Ends

/-- What passes in both directions have in common: the question, and the plan if it is accepted. A
pass that ends well goes on in its own way. -/
theorem ends_question {α : Type} {host : Host σ} {s : σ} (p : Pass) {P : α → σ → Prop}
    {stopped : Halt → σ → Prop} {declined failed : α} {ended : Run σ α}
    (hasking : ∀ h s', host.ask p.prompt s = (.error h, s') → stopped h s')
    (hdeclined : ∀ choice s', host.ask p.prompt s = (.ok choice, s') →
      choice ≠ some p.prompt.accept → P declined s')
    (happlying : ∀ s₁ h s', host.ask p.prompt s = (.ok (some p.prompt.accept), s₁) →
      host.applyPlan p.plan s₁ = (.error h, s') → stopped h s')
    (hfailed : ∀ s₁ s', host.ask p.prompt s = (.ok (some p.prompt.accept), s₁) →
      host.applyPlan p.plan s₁ = (.ok false, s') → P failed s')
    (hended : ∀ s₁ s₂, host.ask p.prompt s = (.ok (some p.prompt.accept), s₁) →
      host.applyPlan p.plan s₁ = (.ok true, s₂) → Ends P stopped (ended s₂)) :
    Ends P stopped ((host.ask p.prompt >>= fun choice =>
      if choice ≠ some p.prompt.accept then pure declined
      else host.applyPlan p.plan >>= fun done => if done then ended else pure failed) s) := by
  rcases hask : host.ask p.prompt s with ⟨h | choice, s₁⟩
  · rw [run_bind_of_error hask]
    exact hasking h s₁ hask
  · rw [run_bind_of_ok hask]
    by_cases hchoice : choice = some p.prompt.accept
    · subst hchoice
      rw [if_neg (not_not_intro rfl)]
      rcases happly : host.applyPlan p.plan s₁ with ⟨h | done, s₂⟩
      · rw [run_bind_of_error happly]
        exact happlying s₁ h s₂ hask happly
      · rw [run_bind_of_ok happly]
        cases done with
        | true => exact hended s₁ s₂ hask happly
        | false => exact hfailed s₁ s₂ hask happly
    · rw [if_pos hchoice]
      exact hdeclined choice s₁ hask hchoice

namespace Engine

theorem ends_syncUsages (e : Engine σ) (name : Text) (props : List Text) (s : σ) :
    Ends (fun p s' => Pushes e name props s p ∧ Performed e.host s p s') (Halted e s)
      (e.syncUsages name props s) := by
  unfold syncUsages
  cases hplan : e.planUsages name props s with
  | error h =>
    rw [run_bind_of_error (tryRead_eq hplan)]
    exact .reading (eq_error_of_map (planUsages_eq e name props s ▸ hplan))
  | ok plan =>
    rw [run_bind_of_ok (tryRead_eq hplan)]
    by_cases hempty : plan.isEmpty = true
    · simp only [hempty, if_true]
      refine ⟨⟨rfl, rfl, rfl, plan, hplan, ?_⟩, .idle (by simp [Pass.asks])⟩
      rw [if_pos hempty]
      exact ⟨rfl, rfl⟩
    · simp only [hempty]
      let pass (status : Status) : Pass :=
        { component := name, direction := .definitionToUsages, status, plan }
      have hpushes (status : Status) (hasks : (pass status).asks) :
          Pushes e name props s (pass status) := by
        refine ⟨rfl, rfl, rfl, plan, hplan, ?_⟩
        rw [if_neg hempty]
        exact ⟨hasks, rfl⟩
      have hdeclined := hpushes .declined (Or.inl rfl)
      have happlied := hpushes .applied (Or.inr (Or.inl rfl))
      have hfailed := hpushes .applyFailed (Or.inr (Or.inr rfl))
      refine ends_question (pass .applied) ?_ ?_ ?_ ?_ ?_
      · exact fun h s' hask => .asking hask
      · exact fun choice s' hask hchoice => ⟨hdeclined, .declined rfl hask hchoice⟩
      · exact fun s₁ h s' hask happly => .applying (Or.inl ⟨name, props, happlied⟩) hask happly
      · exact fun s₁ s' hask happly => ⟨hfailed, .failed rfl hask happly⟩
      · intro s₁ s₂ hask happly
        rcases hnotify : e.host.notify (syncedMessage name) s₂ with ⟨h | _, s₃⟩
        · rw [run_bind_of_error hnotify]
          exact .notifying (p := pass .applied) hask happly hnotify
        · rw [run_bind_of_ok hnotify]
          exact ⟨happlied, .completed rfl rfl hask happly hnotify⟩

/-- A run of passes from a state that stops: behind a trace of passes, in one that does not end. -/
def HaltsAfter (e : Engine σ) (s : σ) (h : Halt) (s' : σ) : Prop :=
  ∃ before s₁, Trace (Step e) s before s₁ ∧ Halted e s₁ h s'

theorem HaltsAfter.of_halted {e : Engine σ} {s s' : σ} {h : Halt} (hs : Halted e s h s') :
    HaltsAfter e s h s' :=
  ⟨[], s, .nil s, hs⟩

theorem HaltsAfter.after {e : Engine σ} {s s₁ s' : σ} {passes : List Pass} {h : Halt}
    (ht : Trace (Step e) s passes s₁) (hs : HaltsAfter e s₁ h s') : HaltsAfter e s h s' := by
  obtain ⟨before, s₂, hbefore, hstop⟩ := hs
  exact ⟨passes ++ before, s₂, ht.append hbefore, hstop⟩

theorem ends_syncDefinition (e : Engine σ) (usage : Usage) (s : σ) :
    Ends (Takings e usage s) (HaltsAfter e s) (e.syncDefinition usage s) := by
  unfold syncDefinition
  cases hlocate : e.locate usage.component s with
  | error h =>
    rw [run_bind_of_error (tryRead_eq hlocate)]
    exact .of_halted (.reading (eq_error_of_map (locate_eq e usage.component s ▸ hlocate)))
  | ok located =>
    rw [run_bind_of_ok (tryRead_eq hlocate)]
    cases located with
    | none =>
      exact .alone ⟨rfl, rfl, none, hlocate, rfl, rfl, rfl⟩ (.idle (by simp [Pass.asks])) nofun
    | some l =>
      simp only
      by_cases hempty :
          (widening e.settings.widenMode l.snapshot l.definition usage.props).added.isEmpty = true
      · rw [if_pos hempty]
        refine .alone ⟨rfl, rfl, some l, hlocate, ?_⟩ (.idle (by simp [Pass.asks])) nofun
        refine ⟨(plan_widening_of_isEmpty hempty).symm, (List.isEmpty_iff.1 hempty).symm, ?_⟩
        rw [if_pos hempty]
      · rw [if_neg hempty]
        let pass (status : Status) : Pass :=
          { component := usage.component, direction := .usageToDefinition, status
            plan := (widening e.settings.widenMode l.snapshot l.definition usage.props).plan
            added := (widening e.settings.widenMode l.snapshot l.definition usage.props).added }
        have htakes (status : Status) (hasks : (pass status).asks) :
            Takes e usage s (pass status) := by
          refine ⟨rfl, rfl, some l, hlocate, rfl, rfl, ?_⟩
          rw [if_neg hempty]
          exact hasks
        have hdeclined := htakes .declined (Or.inl rfl)
        have happlied := htakes .applied (Or.inr (Or.inl rfl))
        have hfailed := htakes .applyFailed (Or.inr (Or.inr rfl))
        refine ends_question (pass .applied) ?_ ?_ ?_ ?_ ?_
        · exact fun h s' hask => .of_halted (.asking hask)
        · exact fun choice s' hask hchoice => .alone hdeclined (.declined rfl hask hchoice) nofun
        · exact fun s₁ h s' hask happly =>
            .of_halted (.applying (Or.inr ⟨usage, happlied⟩) hask happly)
        · exact fun s₁ s' hask happly => .alone hfailed (.failed rfl hask happly) nofun
        · intro s₁ s₂ hask happly
          have hwidened : Performed e.host s (pass .applied) s₂ := .widened rfl rfl hask happly
          apply Ends.bind ((ends_syncUsages e usage.component _ s₂).imp (fun _ _ => id)
            fun h s' hs => .after (.single ⟨Or.inr ⟨usage, happlied⟩, hwidened⟩) (.of_halted hs))
          intro pushed s₃ hpushed
          exact .handedOn happlied hwidened rfl hlocate hpushed.1 hpushed.2

theorem ends_syncUsage (e : Engine σ) (seen : Seen) (usage : Usage) (s : σ) :
    Ends (fun passes s' => if takesUp seen usage then Takings e usage s passes s'
      else passes = [] ∧ s' = s) (HaltsAfter e s) (e.syncUsage seen usage s) := by
  rw [syncUsage]
  split
  · exact ends_syncDefinition e usage s
  · exact ⟨rfl, rfl⟩

/-- The usages of a list that are taken up. -/
def takenUp (seen : Seen) : List Usage → List Usage
  | [] => []
  | usage :: rest =>
    (if takesUp seen usage then [usage] else []) ++ takenUp (seenAfter seen usage) rest

/-- The passes that come of usages, one group after the other. -/
inductive TakesEach (e : Engine σ) : σ → List Usage → List (List Pass) → σ → Prop where
  | nil (s : σ) : TakesEach e s [] [] s
  | cons {s s₁ s' : σ} {usage : Usage} {rest : List Usage} {group : List Pass}
      {groups : List (List Pass)} : Takings e usage s group s₁ → TakesEach e s₁ rest groups s' →
      TakesEach e s (usage :: rest) (group :: groups) s'

theorem TakesEach.trace {e : Engine σ} {s s' : σ} {usages : List Usage}
    {groups : List (List Pass)} (h : TakesEach e s usages groups s') :
    Trace (Step e) s groups.flatten s' := by
  induction h with
  | nil s => exact .nil s
  | cons hgroup _ ih => exact hgroup.trace.append ih

theorem ends_syncEach (e : Engine σ) (seen : Seen) (usages : List Usage) (s : σ) :
    Ends (fun passes s' => ∃ groups, passes = groups.flatten ∧
      TakesEach e s (takenUp seen usages) groups s') (HaltsAfter e s)
      (e.syncEach seen usages s) := by
  induction usages generalizing seen s with
  | nil => exact ⟨[], rfl, .nil s⟩
  | cons usage rest ih =>
    rw [syncEach, takenUp]
    apply Ends.bind (ends_syncUsage e seen usage s)
    intro passes s₁ hpasses
    split at hpasses
    · rename_i htakes
      rw [if_pos htakes]
      apply Ends.bind ((ih (seenAfter seen usage) s₁).imp (fun _ _ => id)
        fun h s' hs => .after hpasses.trace hs)
      rintro others s' ⟨groups, rfl, hgroups⟩
      exact ⟨passes :: groups, rfl, .cons hpasses hgroups⟩
    · rename_i htakes
      obtain ⟨rfl, rfl⟩ := hpasses
      rw [if_neg htakes]
      apply Ends.bind (ih (seenAfter seen usage) s₁)
      rintro others s' ⟨groups, rfl, hgroups⟩
      exact ⟨groups, rfl, hgroups⟩

/-- The passes that push the props of definitions, one after the other. -/
inductive PushesEach (e : Engine σ) : σ → List Definition → List Pass → σ → Prop where
  | nil (s : σ) : PushesEach e s [] [] s
  | cons {s s₁ s' : σ} {d : Definition} {rest : List Definition} {p : Pass}
      {passes : List Pass} : Pushes e d.name d.props s p → Performed e.host s p s₁ →
      PushesEach e s₁ rest passes s' → PushesEach e s (d :: rest) (p :: passes) s'

theorem PushesEach.trace {e : Engine σ} {s s' : σ} {definitions : List Definition}
    {passes : List Pass} (h : PushesEach e s definitions passes s') :
    Trace (Step e) s passes s' := by
  induction h with
  | nil s => exact .nil s
  | cons hpushes hperformed _ ih => exact .cons ⟨Or.inl ⟨_, _, hpushes⟩, hperformed⟩ ih

theorem ends_pushEach (e : Engine σ) (definitions : List Definition) (s : σ) :
    Ends (PushesEach e s definitions) (HaltsAfter e s) (e.pushEach definitions s) := by
  induction definitions generalizing s with
  | nil => exact .nil s
  | cons d rest ih =>
    rw [pushEach]
    apply Ends.bind ((ends_syncUsages e d.name d.props s).imp (fun _ _ => id)
      fun h s' hs => .of_halted hs)
    rintro pass s₁ ⟨hpushes, hperformed⟩
    apply Ends.bind ((ih s₁).imp (fun _ _ => id)
      fun h s' hs => .after (.single ⟨Or.inl ⟨_, _, hpushes⟩, hperformed⟩) hs)
    intro others s' hothers
    exact .cons hpushes hperformed hothers

/-- What a save comes to: it is skipped, or it pushes the props of the definitions in the text and
then takes up the usages. -/
inductive Saves (e : Engine σ) (event : SaveEvent) (s : σ) : Outcome → σ → Prop where
  | skipped : e.settings.accepts event.language = false ∨
      e.scannerForLanguage? event.language = none →
      Saves e event s { path := event.path, skipped := true } s
  | ran {scanner : Scanner} {pushed : List Pass} {groups : List (List Pass)} {s₁ s' : σ} :
      e.settings.accepts event.language = true →
      e.scannerForLanguage? event.language = some scanner →
      PushesEach e s (firstOfEach [] (scanner.definitions event.text)) pushed s₁ →
      TakesEach e s₁ (takenUp [] (scanner.usages event.text)) groups s' →
      Saves e event s { path := event.path, passes := pushed ++ groups.flatten } s'

theorem Saves.trace {e : Engine σ} {event : SaveEvent} {s s' : σ} {outcome : Outcome}
    (h : Saves e event s outcome s') : Trace (Step e) s outcome.passes s' := by
  cases h with
  | skipped _ => exact .nil s
  | ran _ _ hpushed htaken => exact hpushed.trace.append htaken.trace

theorem ends_save (e : Engine σ) (event : SaveEvent) (s : σ) :
    Ends (Saves e event s) (HaltsAfter e s) (e.save event s) := by
  rw [save]
  cases haccepts : e.settings.accepts event.language with
  | false => exact .skipped (Or.inl haccepts)
  | true =>
    rw [if_neg (by simp)]
    cases hscanner : e.scannerForLanguage? event.language with
    | none => exact .skipped (Or.inr hscanner)
    | some scanner =>
      apply Ends.bind (ends_pushEach e _ s)
      intro pushed s₁ hpushed
      apply Ends.bind ((ends_syncEach e [] _ s₁).imp (fun _ _ => id)
        fun h s' hs => .after hpushed.trace hs)
      rintro taken s' ⟨groups, rfl, htaken⟩
      exact .ran haccepts hscanner hpushed htaken

/-! ## Traces of performed passes -/

theorem HaltsAfter.interrupted {e : Engine σ} {s s' : σ} {h : Halt} (hs : HaltsAfter e s h s') :
    ∃ before s₁, Trace (Performed e.host) s before s₁ ∧ Interrupted e.host s₁ s' := by
  obtain ⟨before, s₁, hbefore, hstop⟩ := hs
  exact ⟨before, s₁, hbefore.imp fun _ _ _ hp => hp.performed, hstop.interrupted⟩

theorem traced_of_ends {α : Type} {e : Engine σ} {s : σ} {P : α → σ → Prop}
    {f : α → List Pass} {r : Except Halt α × σ} (h : Ends P (HaltsAfter e s) r)
    (hP : ∀ a s', P a s' → Trace (Step e) s (f a) s') : Traced e.host f s r := by
  obtain ⟨h' | a, s'⟩ := r
  · exact HaltsAfter.interrupted h
  · exact (hP a s' h).imp fun _ _ _ hp => hp.performed

theorem traced_syncUsages (e : Engine σ) (name : Text) (props : List Text) (s : σ) :
    Traced e.host (fun pass => [pass]) s (e.syncUsages name props s) := by
  apply traced_of_ends ((ends_syncUsages e name props s).imp (fun _ _ => id)
    fun h s' hs => HaltsAfter.of_halted hs)
  intro p s' hp
  exact .single ⟨Or.inl ⟨name, props, hp.1⟩, hp.2⟩

theorem traced_syncUsage (e : Engine σ) (seen : Seen) (usage : Usage) (s : σ) :
    Traced e.host id s (e.syncUsage seen usage s) := by
  apply traced_of_ends (ends_syncUsage e seen usage s)
  intro passes s' hpasses
  split at hpasses
  · exact hpasses.trace
  · obtain ⟨rfl, rfl⟩ := hpasses
    exact .nil s'

theorem traced_pushEach (e : Engine σ) (definitions : List Definition) (s : σ) :
    Traced e.host id s (e.pushEach definitions s) :=
  traced_of_ends (ends_pushEach e definitions s) fun _ _ h => h.trace

/-- A save is the trace of the passes it reports. -/
theorem traced_save (e : Engine σ) (event : SaveEvent) (s : σ) :
    Traced e.host Outcome.passes s (e.save event s) :=
  traced_of_ends (ends_save e event s) fun _ _ h => h.trace

end Engine

end PropAccord.Sync
