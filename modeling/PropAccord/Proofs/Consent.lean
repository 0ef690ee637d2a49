import PropAccord.Command.Sync
import PropAccord.Editor.Server
import PropAccord.Proofs.Passes
import PropAccord.Proofs.Writing

/-!
# Consent

On disk, each pass of a save leaves a record of the question it put and of the notice it gave. Files
are written only for a pass whose question was answered by the label that accepts it, and only the
files of its plan. Where every question is declined, as in a dry run, nothing is written or sent.
-/

namespace PropAccord

set_option autoImplicit false

namespace Workspace

/-- The label that the next answer chooses. -/
def choiceFor (w : Workspace) (prompt : Prompt) : Option Text :=
  (w.answers.head?.getD {}).reply.choice prompt

/-- The workspace after the next answer, with the files that it changes. -/
def answered (w : Workspace) (prompt : Prompt) : Workspace := (askScript prompt w).2

theorem askScript_eq (prompt : Prompt) (w : Workspace) :
    askScript prompt w = (.ok (w.choiceFor prompt), w.answered prompt) :=
  rfl

theorem asked_answered (w : Workspace) (prompt : Prompt) :
    (w.answered prompt).asked = w.asked ++ [⟨prompt, w.choiceFor prompt⟩] :=
  rfl

theorem notes_answered (w : Workspace) (prompt : Prompt) : (w.answered prompt).notes = w.notes :=
  rfl

end Workspace

namespace Sync

open Workspace (RestoreFails applyPlan)

/-- The workspace after the answer to the question of a pass, if it asks one. -/
def metBy (w : Workspace) (p : Pass) : Workspace := if p.asks then w.answered p.prompt else w

/-- A pass on disk keeps to the consent it was given. -/
structure Consented (w : Workspace) (p : Pass) (w' : Workspace) : Prop where
  prompts : w'.asked = w.asked ++ if p.asks then [⟨p.prompt, w.choiceFor p.prompt⟩] else []
  accepted : p.status = .applied ∨ p.status = .applyFailed ↔
    p.asks ∧ w.choiceFor p.prompt = some p.prompt.accept
  carried : p.status = .applied ∨ p.status = .applyFailed →
    (applyPlan p.plan (metBy w p)).1 = .ok (p.status = .applied) ∧
      w'.disk = (applyPlan p.plan (metBy w p)).2.disk
  left : ¬ (p.status = .applied ∨ p.status = .applyFailed) → w' = metBy w p
  notices : w'.notes = w.notes ++
    if p.status = .applied ∧ p.direction = .definitionToUsages then [syncedMessage p.component]
    else []
  kept : p.status ≠ .applied → ¬ RestoreFails (metBy w p) p.plan →
    ∀ path, w'.disk.readText path = (metBy w p).disk.readText path
  confined : p.status = .applied →
    ∀ place, (∀ f ∈ p.plan.files, f.path.resolve (metBy w p).disk.cwd ≠ place) →
      w'.disk.view place = (metBy w p).disk.view place

/-- A save on disk that stops does so before its next question, or in carrying out a plan that was
accepted and before anything is written. -/
def Stopped (w w' : Workspace) : Prop :=
  w' = w ∨ ∃ p : Pass, w.choiceFor p.prompt = some p.prompt.accept ∧
    w'.disk = (w.answered p.prompt).disk ∧ w'.asked = (w.answered p.prompt).asked ∧
    w'.notes = w.notes

section

variable {root : Path} {cwd : List Text} {w w' : Workspace} {p : Pass}

theorem metBy_of_asks (h : p.asks) : metBy w p = w.answered p.prompt := if_pos h

/-- A pass whose plan was carried out, well or not. -/
theorem consented_of_applyPlan (done : Bool) {w₁ : Workspace}
    (hstatus : p.status = if done then .applied else .applyFailed)
    (hchoice : w.choiceFor p.prompt = some p.prompt.accept)
    (happly : applyPlan p.plan (w.answered p.prompt) = (.ok done, w₁)) (hdisk : w'.disk = w₁.disk)
    (hasked : w'.asked = w₁.asked)
    (hnotes : w'.notes = w₁.notes ++
      if p.status = .applied ∧ p.direction = .definitionToUsages then [syncedMessage p.component]
      else []) : Consented w p w' := by
  have hended : p.status = .applied ∨ p.status = .applyFailed := by
    cases done with
    | true => exact Or.inl hstatus
    | false => exact Or.inr hstatus
  have hdone : decide (p.status = .applied) = done := by
    rw [hstatus]
    cases done <;> rfl
  have hasks : p.asks := Or.inr hended
  obtain ⟨hlogged, hnoted⟩ := Workspace.applyPlan_logs p.plan (w.answered p.prompt)
  rw [happly] at hlogged hnoted
  have hmet := metBy_of_asks (w := w) hasks
  have hcarried : (applyPlan p.plan (metBy w p)).1 = .ok (p.status = .applied) ∧
      w'.disk = (applyPlan p.plan (metBy w p)).2.disk := by
    rw [hmet, happly, hdone]
    exact ⟨rfl, hdisk⟩
  refine ⟨?_, ?_, fun _ => hcarried, fun h => absurd hended h, ?_, ?_, ?_⟩
  · rw [hasked, hlogged, if_pos hasks, Workspace.asked_answered]
  · exact iff_of_true hended ⟨hasks, hchoice⟩
  · rw [hnotes, hnoted, Workspace.notes_answered]
  · intro hne hback path
    rw [hcarried.2]
    apply Workspace.readText_applyPlan_of_ne _ hback
    rw [hcarried.1, decide_eq_false hne]
    exact nofun
  · intro _ place hplace
    rw [hcarried.2]
    exact (Workspace.applyPlan_frame p.plan (metBy w p)).2.2 place hplace

theorem consented_of_performed (h : Performed (Workspace.host root cwd .scripted) w p w') :
    Consented w p w' := by
  cases h with
  | idle hasks =>
    have hnot : ¬ (p.status = .applied ∨ p.status = .applyFailed) := fun h => hasks (Or.inr h)
    have hmet : metBy w p = w := if_neg hasks
    refine ⟨?_, iff_of_false hnot fun h => hasks h.1, fun h => absurd h hnot, fun _ => hmet.symm,
      ?_, ?_, ?_⟩
    · rw [if_neg hasks, List.append_nil]
    · rw [if_neg fun h => hnot (Or.inl h.1), List.append_nil]
    · intro _ _ path
      rw [hmet]
    · exact fun h => absurd (Or.inl h) hnot
  | declined hstatus hask hchoice =>
    cases (Workspace.askScript_eq p.prompt w).symm.trans hask
    have hnot : ¬ (p.status = .applied ∨ p.status = .applyFailed) := by
      rw [hstatus]
      rintro (h | h) <;> cases h
    have hasks : p.asks := Or.inl hstatus
    have hmet : metBy w p = w.answered p.prompt := metBy_of_asks hasks
    refine ⟨?_, iff_of_false hnot fun h => hchoice h.2, fun h => absurd h hnot, fun _ => hmet.symm,
      ?_, ?_, ?_⟩
    · rw [if_pos hasks, Workspace.asked_answered]
    · rw [if_neg fun h => hnot (Or.inl h.1), List.append_nil, Workspace.notes_answered]
    · intro _ _ path
      rw [hmet]
    · exact fun h => absurd (Or.inl h) hnot
  | failed hstatus hask happly =>
    obtain ⟨hchoice, rfl⟩ := Prod.mk.inj ((Workspace.askScript_eq p.prompt w).symm.trans hask)
    refine consented_of_applyPlan false hstatus (Except.ok.inj hchoice) happly rfl rfl ?_
    rw [if_neg (by rw [hstatus]; exact nofun), List.append_nil]
  | widened hstatus hdirection hask happly =>
    obtain ⟨hchoice, rfl⟩ := Prod.mk.inj ((Workspace.askScript_eq p.prompt w).symm.trans hask)
    refine consented_of_applyPlan true hstatus (Except.ok.inj hchoice) happly rfl rfl ?_
    rw [if_neg (by rw [hdirection]; exact nofun), List.append_nil]
  | completed hstatus hdirection hask happly hnotify =>
    obtain ⟨hchoice, rfl⟩ := Prod.mk.inj ((Workspace.askScript_eq p.prompt w).symm.trans hask)
    cases hnotify
    refine consented_of_applyPlan true hstatus (Except.ok.inj hchoice) happly rfl rfl ?_
    rw [if_pos ⟨hstatus, hdirection⟩]

theorem stopped_of_interrupted (h : Interrupted (Workspace.host root cwd .scripted) w w') :
    Stopped w w' := by
  cases h with
  | reading => exact Or.inl rfl
  | asking hask => cases hask
  | applying hask happly =>
    rename_i w₁ p halt
    obtain ⟨hchoice, rfl⟩ := Prod.mk.inj ((Workspace.askScript_eq p.prompt w).symm.trans hask)
    obtain ⟨hlogged, hnoted⟩ := Workspace.applyPlan_logs p.plan (w.answered p.prompt)
    have happly' : applyPlan p.plan (w.answered p.prompt) = (.error halt, w') := happly
    rw [happly'] at hlogged hnoted
    exact Or.inr ⟨p, Except.ok.inj hchoice, Workspace.applyPlan_disk_of_error happly', hlogged,
      hnoted⟩
  | notifying _ _ hnotify => cases hnotify

end

/-! ## Dry runs -/

theorem Pass.cancel_ne_accept (p : Pass) : some p.prompt.cancel ≠ some p.prompt.accept := by
  have husages : cancelLabel ≠ acceptUsages := by decide
  have hdefinition : cancelLabel ≠ acceptDefinition := by decide
  rw [Pass.prompt]
  cases p.direction with
  | definitionToUsages => exact fun h => husages (Option.some.inj h)
  | usageToDefinition => exact fun h => hdefinition (Option.some.inj h)

theorem declines_terminal (root : Path) (cwd : List Text) (assumeYes : Bool) :
    Declines (Workspace.host root cwd (.terminal assumeYes true)) Workspace.disk := by
  intro p w
  exact ⟨some p.prompt.cancel, _, rfl, p.cancel_ne_accept, rfl⟩

theorem declines_editor (root : Path) (cwd : List Text) :
    Declines (Editor.host root cwd (some .decline)) id := by
  intro p e
  exact ⟨some p.prompt.cancel, e, rfl, p.cancel_ne_accept, rfl⟩

/-- Where every question is declined, a save changes nothing that is seen. -/
theorem view_save_of_declines {σ τ : Type} {host : Host σ} {view : σ → τ} (h : Declines host view)
    (settings : Settings) {event : SaveEvent} {s s' : σ} {result : Except Halt Outcome}
    (hsave : Engine.save { host, settings } event s = (result, s')) : view s' = view s := by
  have htraced := h.traced (Engine.traced_save { host, settings } event s)
  rwa [hsave] at htraced

theorem disk_sync_of_dryRun {request : Request} (h : request.dryRun = true) (config : Option Path)
    (w : Workspace) :
    (Command.sync request config (.terminal request.assumeYes request.dryRun) w).2.disk =
      w.disk := by
  rw [h, Command.sync]
  split
  · rfl
  · split
    · rfl
    · rename_i settings _
      simp only
      split
      · rename_i halt w' hsave
        exact view_save_of_declines (declines_terminal _ _ _) settings hsave
      · rename_i outcome w' hsave
        have hdisk := view_save_of_declines (declines_terminal _ _ _) settings hsave
        split <;> exact hdisk

theorem runSave_of_decline (root : Path) (overrides : Table) (event : SaveEvent) (editor : Editor) :
    (Server.runSave root overrides (some .decline) event editor).2 = editor := by
  rw [Server.runSave]
  split
  · rfl
  · rename_i settings _
    exact view_save_of_declines (declines_editor root editor.disk.cwd) settings rfl

theorem executeRequest_of_dryRun {request : Request} (h : request.dryRun = true)
    (folder : Option Text) (overrides : Table) (editor : Editor) :
    (Server.executeRequest folder request overrides editor).2 = editor := by
  have hsettled : Server.settledBy request = some .decline := by
    rw [Server.settledBy, h, if_pos rfl]
  unfold Server.executeRequest
  simp only [hsettled]
  split
  · rfl
  · split
    · rfl
    · rfl
    · rfl
    · rename_i text _
      have hrun := runSave_of_decline (Server.rootOf editor.disk folder) overrides
        ⟨(Server.rootOf editor.disk folder).join (.ofText request.path),
          Server.firstText [request.language,
            Language.ofPath? ((Server.rootOf editor.disk folder).join (.ofText request.path))],
          text⟩ editor
      split
      · rename_i halt editor' heq
        rw [heq] at hrun
        exact hrun
      · rename_i outcome editor' heq
        rw [heq] at hrun
        split <;> exact hrun

theorem execute_of_dryRun {payload : Value} {request : Request}
    (hrequest : Request.ofValue payload = .ok request) (h : request.dryRun = true)
    (folder : Option Text) (editor : Editor) :
    (Server.execute folder payload editor).2 = editor := by
  unfold Server.execute
  split
  · simp only [hrequest]
    exact executeRequest_of_dryRun h folder _ editor
  · rfl

/-! ## Saves -/

/-- The passes of a run keep to the consent they were given, also when it stops. -/
def ConsentedRun (w : Workspace) : Except Halt Outcome × Workspace → Prop
  | (.ok outcome, w') => Trace Consented w outcome.passes w'
  | (.error _, w') => ∃ passes w₁, Trace Consented w passes w₁ ∧ Stopped w₁ w'

/-- No write without consent: each pass of a save on disk keeps to the answer it was given, and dry
runs change no file and send no edit. -/
theorem save_keeps_consent (root : Path) (cwd : List Text) (settings : Settings)
    (scanner : Option Scanner) (registry : Registry) (event : SaveEvent) (w : Workspace) :
    ConsentedRun w (Engine.save
      { host := Workspace.host root cwd .scripted, settings, scanner, registry } event w) ∧
    (∀ (request : Request) (config : Option Path), request.dryRun = true →
      (Command.sync request config (.terminal request.assumeYes request.dryRun) w).2.disk =
        w.disk) ∧
    ∀ (folder : Option Text) (payload : Value) (request : Request) (editor : Editor),
      Request.ofValue payload = .ok request → request.dryRun = true →
      (Server.execute folder payload editor).2 = editor := by
  refine ⟨?_, fun request config h => disk_sync_of_dryRun h config w,
    fun folder payload request editor hrequest h => execute_of_dryRun hrequest h folder editor⟩
  have htraced := Engine.traced_save
    { host := Workspace.host root cwd .scripted, settings, scanner, registry } event w
  revert htraced
  generalize Engine.save
    { host := Workspace.host root cwd .scripted, settings, scanner, registry } event w = run
  intro htraced
  obtain ⟨result, w'⟩ := run
  cases result with
  | ok outcome => exact htraced.imp fun _ _ _ hp => consented_of_performed hp
  | error halt =>
    obtain ⟨passes, w₁, htrace, hstop⟩ := htraced
    exact ⟨passes, w₁, htrace.imp fun _ _ _ hp => consented_of_performed hp,
      stopped_of_interrupted hstop⟩

end Sync

end PropAccord
