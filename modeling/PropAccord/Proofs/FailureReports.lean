import PropAccord.Command.Sync
import PropAccord.Proofs.Passes
import PropAccord.Proofs.Writing

/-!
# Reasons in a report

Carrying out a plan leaves the reason of its failure, or none if all went well, in one place, where the
next plan that is carried out leaves its own. The report of a save is drawn up when all passes have
ended. It has an entry exactly if some pass could not carry out its plan, but the entry is what the last
plan has left: the reason of an earlier failure is in the report only if the last plan failed for the
same reason, and where the last plan was carried out well the entry gives no reason at all.
-/

namespace PropAccord

set_option autoImplicit false

namespace Workspace

/-! ## The place of the reason -/

variable {consent : Consent} {w w' : Workspace}

theorem lastError_ask (consent : Consent) (prompt : Prompt) (w : Workspace) :
    (ask consent prompt w).2.lastError = w.lastError := by
  cases consent with
  | scripted => rfl
  | silent => rfl
  | terminal assumeYes dryRun =>
    cases dryRun with
    | true => rfl
    | false =>
      cases assumeYes with
      | true => rfl
      | false =>
        simp only [ask, askTerminal, Bool.false_eq_true, if_false]
        split <;> rfl

theorem lastError_notify (consent : Consent) (message : Text) (w : Workspace) :
    (notify consent message w).2.lastError = w.lastError := by
  cases consent <;> rfl

theorem lastError_of_ask {prompt : Prompt} {result : Except Halt (Option Text)}
    (h : ask consent prompt w = (result, w')) : w'.lastError = w.lastError := by
  rw [← lastError_ask consent prompt w, h]

theorem lastError_of_notify {message : Text} {result : Except Halt Unit}
    (h : notify consent message w = (result, w')) : w'.lastError = w.lastError := by
  rw [← lastError_notify consent message w, h]

/-- A text that can be told from the one which stands in the report when there is no reason. -/
def Explains (reason : Text) : Prop := ∃ c rest, reason = c :: rest ∧ c ≠ 'E'

theorem Explains.append {s : Text} (h : Explains s) (t : Text) : Explains (s ++ t) := by
  obtain ⟨c, rest, rfl, hc⟩ := h
  exact ⟨c, rest ++ t, rfl, hc⟩

theorem Explains.join {s : Text} (h : Explains s) {separator : Text} (rest : List Text) :
    Explains (Text.join separator (s :: rest)) := by
  cases rest with
  | nil => rwa [Text.join, List.intercalate_singleton]
  | cons t rest =>
    rw [Text.join, List.intercalate_cons_cons, List.append_assoc]
    exact h.append _

theorem Explains.isEmpty_eq_false {reason : Text} (h : Explains reason) : reason.isEmpty = false := by
  obtain ⟨c, rest, rfl, -⟩ := h
  rfl

theorem Explains.ne_unexplained {reason : Text} (h : Explains reason) :
    reason ≠ "Edit could not be applied.".toList := by
  obtain ⟨c, rest, rfl, hc⟩ := h
  exact fun heq => hc (List.cons.inj heq).1

theorem explains_writeFailed : Explains writeFailed := ⟨_, _, rfl, by decide⟩

/-- How the report of undecodable bytes begins. -/
theorem explains_undecodable : Explains "'utf-8' codec can't decode ".toList :=
  ⟨_, _, rfl, by decide⟩

theorem explains_message (fault : ReadFault) : Explains fault.message := by
  cases fault with
  | missing path => exact Explains.append ⟨_, _, rfl, by decide⟩ _
  | notFolder path => exact Explains.append ⟨_, _, rfl, by decide⟩ _
  | isFolder path => exact Explains.append ⟨_, _, rfl, by decide⟩ _
  | tooLong path => exact Explains.append ⟨_, _, rfl, by decide⟩ _
  | nullByte => exact ⟨_, _, rfl, by decide⟩
  | undecodable fault => exact ((explains_undecodable.append _).append _).append _

theorem lastError_of_applyPlan_ok {plan : Plan}
    (h : applyPlan plan w = (.ok true, w')) : w'.lastError = none := by
  rcases applyPlan_cases plan w with ⟨result, error, heq, hne⟩ | ⟨-, rendered, -, -, hcase⟩
  · obtain ⟨hresult, -⟩ := Prod.mk.inj (heq.symm.trans h)
    exact absurd hresult hne
  · rcases hcase with heq | ⟨k, -, -, -, heq⟩
    · obtain ⟨-, rfl⟩ := Prod.mk.inj (heq.symm.trans h)
      rfl
    · cases heq.symm.trans h

/-- A plan that could not be carried out leaves a reason. -/
theorem exists_reason_of_applyPlan {plan : Plan}
    (h : applyPlan plan w = (.ok false, w')) :
    ∃ reason, w'.lastError = some reason ∧ Explains reason := by
  rw [applyPlan] at h
  simp only at h
  split at h
  · cases h
  · cases h
  · rename_i fault _ _
    cases h
    exact ⟨_, rfl, explains_message fault⟩
  · cases h
    exact ⟨_, rfl, Explains.append ⟨_, _, rfl, by decide⟩ _⟩
  · split at h
    · cases h
    · cases h
      exact ⟨_, rfl, explains_writeFailed.join _⟩

end Workspace

namespace Sync

open Workspace (Explains ask applyPlan)

/-! ## Plans that were carried out -/

/-- The pass has tried to carry out its plan. -/
def Pass.attempts (p : Pass) : Prop := p.status = .applied ∨ p.status = .applyFailed

instance (p : Pass) : Decidable p.attempts := inferInstanceAs (Decidable (_ ∨ _))

/-- What a pass leaves as the reason of a failure when it carries out its plan behind the answer. -/
def reasonLeft (consent : Consent) (w : Workspace) (p : Pass) : Option Text :=
  (applyPlan p.plan (ask consent p.prompt w).2).2.lastError

structure Attempt where
  pass : Pass
  reason : Option Text

/-- Passes that are performed one after the other, with those of them that have tried to carry out their
plan and the reasons these have left. -/
inductive Attempted (host : Host Workspace) (consent : Consent) :
    Workspace → List Pass → List Attempt → Workspace → Prop where
  | nil (w : Workspace) : Attempted host consent w [] [] w
  | left {w w₁ w' : Workspace} {p : Pass} {passes : List Pass} {attempts : List Attempt} :
      Performed host w p w₁ → ¬ p.attempts → Attempted host consent w₁ passes attempts w' →
      Attempted host consent w (p :: passes) attempts w'
  | carried {w w₁ w' : Workspace} {p : Pass} {passes : List Pass} {attempts : List Attempt} :
      Performed host w p w₁ → p.attempts → Attempted host consent w₁ passes attempts w' →
      Attempted host consent w (p :: passes) (⟨p, reasonLeft consent w p⟩ :: attempts) w'

section

variable {root : Path} {cwd : List Text} {consent : Consent} {w w' : Workspace} {p : Pass}
  {passes : List Pass} {attempts : List Attempt}

theorem exists_attempted {host : Host Workspace} (consent : Consent)
    (h : Trace (Performed host) w passes w') :
    ∃ attempts, Attempted host consent w passes attempts w' := by
  induction h with
  | nil w => exact ⟨[], .nil w⟩
  | @cons w w₁ w' p passes hp _ ih =>
    obtain ⟨attempts, hattempts⟩ := ih
    by_cases hp' : p.attempts
    · exact ⟨_, .carried hp hp' hattempts⟩
    · exact ⟨_, .left hp hp' hattempts⟩

/-- One pass leaves the place of the reason alone unless it tries to carry out its plan, and what it
leaves there then is a reason exactly if that failed. -/
structure Leaves (consent : Consent) (w : Workspace) (p : Pass) (w' : Workspace) : Prop where
  alone : ¬ p.attempts → w'.lastError = w.lastError
  attempt : p.attempts → w'.lastError = reasonLeft consent w p
  well : p.status = .applied → reasonLeft consent w p = none
  failed : p.status = .applyFailed → ∃ reason, reasonLeft consent w p = some reason ∧ Explains reason

theorem reasonLeft_eq {choice : Option Text} {w₁ w₂ : Workspace} {done : Bool}
    (hask : ask consent p.prompt w = (.ok choice, w₁))
    (happly : applyPlan p.plan w₁ = (.ok done, w₂)) : reasonLeft consent w p = w₂.lastError := by
  rw [reasonLeft, hask, happly]

theorem Leaves.of_not_attempts (hnot : ¬ p.attempts) (hkept : w'.lastError = w.lastError) :
    Leaves consent w p w' :=
  ⟨fun _ => hkept, fun h => absurd h hnot, fun h => absurd (Or.inl h) hnot,
    fun h => absurd (Or.inr h) hnot⟩

theorem Leaves.of_applied (hstatus : p.status = .applied) {choice : Option Text} {w₁ w₂ : Workspace}
    (hask : ask consent p.prompt w = (.ok choice, w₁))
    (happly : applyPlan p.plan w₁ = (.ok true, w₂)) (hkept : w'.lastError = w₂.lastError) :
    Leaves consent w p w' := by
  have hleft := reasonLeft_eq hask happly
  refine ⟨fun h => absurd (Or.inl hstatus) h, fun _ => hkept.trans hleft.symm, fun _ => ?_,
    fun h => ?_⟩
  · rw [hleft, Workspace.lastError_of_applyPlan_ok happly]
  · rw [hstatus] at h
    cases h

theorem leaves_of_performed (h : Performed (Workspace.host root cwd consent) w p w') :
    Leaves consent w p w' := by
  cases h with
  | idle hasks => exact .of_not_attempts (fun h => hasks (Or.inr h)) rfl
  | declined hstatus hask hchoice =>
    refine .of_not_attempts ?_ (Workspace.lastError_of_ask hask)
    rw [Pass.attempts, hstatus]
    rintro (h | h) <;> cases h
  | failed hstatus hask happly =>
    have hleft := reasonLeft_eq hask happly
    refine ⟨fun h => absurd (Or.inr hstatus) h, fun _ => hleft.symm, fun h => ?_, fun _ => ?_⟩
    · rw [hstatus] at h
      cases h
    · rw [hleft]
      exact Workspace.exists_reason_of_applyPlan happly
  | widened hstatus hdirection hask happly => exact .of_applied hstatus hask happly rfl
  | completed hstatus hdirection hask happly hnotify =>
    exact .of_applied hstatus hask happly (Workspace.lastError_of_notify hnotify)

namespace Attempted

theorem mem_of_attempts {host : Host Workspace} (hp : p.attempts)
    (h : Attempted host consent w (p :: passes) attempts w') :
    ⟨p, reasonLeft consent w p⟩ ∈ attempts := by
  cases h with
  | left _ hnot _ => exact absurd hp hnot
  | carried _ _ _ => exact List.mem_cons_self

variable (h : Attempted (Workspace.host root cwd consent) consent w passes attempts w')
include h

/-- Behind passes the place of the reason has what the last plan has left there. -/
theorem lastError_eq :
    w'.lastError = (attempts.getLast?.map Attempt.reason).getD w.lastError := by
  induction h with
  | nil w => rfl
  | left hp hnot _ ih => rw [ih, (leaves_of_performed hp).alone hnot]
  | @carried w w₁ w' p passes attempts hp hattempts _ ih =>
    rw [ih, (leaves_of_performed hp).attempt hattempts, List.getLast?_cons]
    cases attempts.getLast? <;> rfl

/-- Exactly the passes that have tried to carry out their plan are recorded, in their order. -/
theorem map_pass : attempts.map Attempt.pass = passes.filter fun p => p.attempts := by
  induction h with
  | nil w => rfl
  | left _ hnot _ ih => rw [ih, List.filter_cons_of_neg (by simpa using hnot)]
  | carried _ hattempts _ ih =>
    rw [List.map_cons, ih, List.filter_cons_of_pos (by simpa using hattempts)]

theorem reason_of_mem {a : Attempt} (ha : a ∈ attempts) :
    (a.pass.status = .applied ∧ a.reason = none) ∨
      a.pass.status = .applyFailed ∧ ∃ reason, a.reason = some reason ∧ Explains reason := by
  induction h with
  | nil w => cases ha
  | left hp _ _ ih => exact ih ha
  | carried hp hattempts _ ih =>
    rcases List.mem_cons.1 ha with rfl | ha
    · have hleaves := leaves_of_performed hp
      exact hattempts.imp (fun hs => ⟨hs, hleaves.well hs⟩) fun hs => ⟨hs, hleaves.failed hs⟩
    · exact ih ha

end Attempted

end

end Sync

namespace Command

open Sync (Attempt Attempted Engine Outcome)
open Workspace (Explains)

/-- The host of the save that a request comes to. -/
def hostOf (request : Request) (consent : Consent) (w : Workspace) : Host Workspace :=
  Workspace.host (rootOf w.disk request.root) w.disk.cwd consent

/-- The file of a request is read, the settings are loaded, and the save ends. -/
def Saves (request : Request) (config : Option Path) (consent : Consent) (w : Workspace)
    (outcome : Outcome) (w' : Workspace) : Prop :=
  ∃ text settings, readSource w.disk (Path.ofText request.path) = .ok text ∧
    Settings.ofFile w.disk (rootOf w.disk request.root) config = .ok settings ∧
    Engine.save { host := hostOf request consent w, settings }
      ⟨Path.ofText request.path, resolveLanguage (Path.ofText request.path) request.language, text⟩ w =
      (.ok outcome, w')

section

variable {request : Request} {config : Option Path} {consent : Consent} {w w' : Workspace}
  {outcome : Outcome} {response : Response}

theorem exists_saves_of_sync (h : sync request config consent w = (.ok response, w')) :
    ∃ outcome, Saves request config consent w outcome w' ∧
      outcome.report (failureReasons outcome w') = .ok response := by
  rw [sync] at h
  simp only at h
  split at h
  · cases h
  · rename_i text htext
    split at h
    · cases h
    · rename_i settings hsettings
      split at h
      · cases h
      · rename_i outcome w₁ hsave
        split at h
        · rename_i hreport
          cases h
          exact ⟨outcome, ⟨text, settings, htext, hsettings, hsave⟩, hreport⟩
        · cases h

theorem Saves.trace (h : Saves request config consent w outcome w') :
    Sync.Trace (Sync.Performed (hostOf request consent w)) w outcome.passes w' := by
  obtain ⟨text, settings, -, -, hsave⟩ := h
  have htraced := Engine.traced_save { host := hostOf request consent w, settings }
    ⟨Path.ofText request.path, resolveLanguage (Path.ofText request.path) request.language, text⟩ w
  rwa [hsave] at htraced

theorem Saves.save_eq (h : Saves request config consent w outcome w') {text : Text}
    {settings : Settings} (htext : readSource w.disk (Path.ofText request.path) = .ok text)
    (hsettings : Settings.ofFile w.disk (rootOf w.disk request.root) config = .ok settings) :
    Engine.save { host := hostOf request consent w, settings }
      ⟨Path.ofText request.path, resolveLanguage (Path.ofText request.path) request.language, text⟩ w =
      (.ok outcome, w') := by
  obtain ⟨text', settings', htext', hsettings', hsave⟩ := h
  obtain rfl := Except.ok.inj (htext.symm.trans htext')
  obtain rfl := Except.ok.inj (hsettings.symm.trans hsettings')
  exact hsave

theorem errors_of_report {errors : List Text} (h : outcome.report errors = .ok response) :
    response.errors = errors := by
  rw [Outcome.report] at h
  cases hpasses : outcome.passes.mapM Sync.Pass.report with
  | error fault =>
    rw [hpasses] at h
    cases h
  | ok passes =>
    rw [hpasses] at h
    cases h
    rfl

theorem failureReasons_ne_nil_iff :
    failureReasons outcome w ≠ [] ↔ ∃ p ∈ outcome.passes, p.status = .applyFailed := by
  have hany : outcome.passes.any (·.status = .applyFailed) = true ↔
      ∃ p ∈ outcome.passes, p.status = .applyFailed := by
    simp only [List.any_eq_true, decide_eq_true_eq]
  rw [failureReasons, ← hany]
  split
  · rename_i hfailed
    exact iff_of_true (List.cons_ne_nil _ _) hfailed
  · rename_i hnone
    exact iff_of_false (fun h => h rfl) hnone

variable {root : Path} {cwd : List Text} {attempts : List Attempt}

/-- What stands in the report is what the last plan has left. -/
theorem mem_failureReasons_iff
    (h : Attempted (Workspace.host root cwd consent) consent w outcome.passes attempts w')
    {a : Attempt} (ha : a ∈ attempts) (hfailed : a.pass.status = .applyFailed) {reason : Text}
    (hreason : Explains reason) :
    reason ∈ failureReasons outcome w' ↔ attempts.getLast?.bind Attempt.reason = some reason := by
  have hpass : a.pass ∈ outcome.passes := by
    have hmem := List.mem_map_of_mem (f := Attempt.pass) ha
    rw [h.map_pass] at hmem
    exact (List.mem_filter.1 hmem).1
  have hany : outcome.passes.any (·.status = .applyFailed) = true :=
    List.any_eq_true.2 ⟨a.pass, hpass, decide_eq_true hfailed⟩
  obtain ⟨last, hlast⟩ : ∃ last, attempts.getLast? = some last :=
    ⟨_, List.getLast?_eq_some_getLast (List.ne_nil_of_mem ha)⟩
  have hleft : w'.lastError = last.reason := by
    rw [h.lastError_eq, hlast]
    rfl
  rw [failureReasons, if_pos hany, hleft, hlast, Option.bind_some, List.mem_singleton]
  rcases h.reason_of_mem (List.mem_of_getLast? hlast) with ⟨-, hnone⟩ | ⟨-, r, hr, hexplains⟩
  · rw [hnone]
    exact iff_of_false hreason.ne_unexplained nofun
  · rw [hr, Option.getD_some, hexplains.isEmpty_eq_false, if_neg nofun, Option.some.injEq]
    exact eq_comm

/-- The report of a save has an entry exactly if some pass could not carry out its plan. The reason of
such a pass is in the report exactly if the last plan was not carried out for the same reason. -/
theorem sync_reports_last_reason (h : sync request config consent w = (.ok response, w')) :
    ∃ outcome attempts, Saves request config consent w outcome w' ∧
      outcome.report response.errors = .ok response ∧
      Attempted (hostOf request consent w) consent w outcome.passes attempts w' ∧
      (response.errors ≠ [] ↔ ∃ p ∈ outcome.passes, p.status = .applyFailed) ∧
      attempts.map Attempt.pass = outcome.passes.filter (fun p => p.attempts) ∧
      ∀ a ∈ attempts, a.pass.status = .applyFailed → ∃ reason, a.reason = some reason ∧
        (reason ∈ response.errors ↔ attempts.getLast?.bind Attempt.reason = some reason) := by
  obtain ⟨outcome, hsaves, hreport⟩ := exists_saves_of_sync h
  obtain ⟨attempts, hattempts⟩ := Sync.exists_attempted consent hsaves.trace
  have herrors := errors_of_report hreport
  refine ⟨outcome, attempts, hsaves, herrors ▸ hreport, hattempts, herrors ▸ failureReasons_ne_nil_iff,
    hattempts.map_pass, ?_⟩
  intro a ha hfailed
  rcases hattempts.reason_of_mem ha with ⟨happlied, -⟩ | ⟨-, reason, hreason, hexplains⟩
  · rw [hfailed] at happlied
    cases happlied
  · exact ⟨reason, hreason, herrors ▸ mem_failureReasons_iff hattempts ha hfailed hexplains⟩

end

/-- Two components, each with a tag that lacks its prop. -/
def twoComponents : Text := "function A({ x }) {}\nfunction B({ y }) {}\n<A />\n<B />\n".toList

def requestOfTwo : Request := { path := "a.tsx".toList }

def workspaceOfTwo (answers : List Answer) : Workspace where
  disk := (Disk.empty []).write (Path.ofText "a.tsx".toList) (Utf8.encode twoComponents)
  answers := answers

/-- The file gets a further line before the answer that accepts. -/
def answerBehindChange : Answer where
  changes := [.write (Path.ofText "a.tsx".toList) (Utf8.encode (twoComponents ++ ['\n']))]

def staleReason : Text := "File changed since it was scanned: /a.tsx".toList

/-- The run of a save whose answers change the file or not, up to its result. -/
def savedTwo (answers : List Answer) : Except Halt Outcome × Workspace :=
  Engine.save { host := hostOf requestOfTwo .scripted (workspaceOfTwo answers) }
    ⟨Path.ofText "a.tsx".toList, "typescriptreact".toList, twoComponents⟩ (workspaceOfTwo answers)

theorem savedTwo_eq {answers : List Answer} {outcome : Outcome} {w' : Workspace}
    (h : Saves requestOfTwo none .scripted (workspaceOfTwo answers) outcome w') :
    savedTwo answers = (.ok outcome, w') := by
  have htext : readSource (workspaceOfTwo []).disk (Path.ofText requestOfTwo.path) =
      .ok twoComponents := by decide +kernel
  have hsettings : Settings.ofFile (workspaceOfTwo []).disk (rootOf (workspaceOfTwo []).disk none) none =
      .ok {} := by decide +kernel
  exact h.save_eq htext hsettings

/-- The second plan is not carried out, and its reason is reported. -/
theorem sync_reports_last_reason_of_two :
    ∃ (response : Response) (w' : Workspace) (outcome : Outcome) (attempts : List Attempt),
      sync requestOfTwo none .scripted (workspaceOfTwo [{}, answerBehindChange]) = (.ok response, w') ∧
      Saves requestOfTwo none .scripted (workspaceOfTwo [{}, answerBehindChange]) outcome w' ∧
      (attempts.map fun a => a.pass.status) = [.applied, .applyFailed] ∧
      ∃ a ∈ attempts, a.pass.status = .applyFailed ∧ ∃ reason, a.reason = some reason ∧
        reason ∈ response.errors := by
  have hends : (sync requestOfTwo none .scripted
      (workspaceOfTwo [{}, answerBehindChange])).1.isOk = true := by decide +kernel
  have hstatuses : (savedTwo [{}, answerBehindChange]).1.toOption.map
      (fun o => o.passes.map Sync.Pass.status) = some [.applied, .applyFailed] := by decide +kernel
  rcases hsync : sync requestOfTwo none .scripted (workspaceOfTwo [{}, answerBehindChange])
    with ⟨fault | response, w'⟩
  · rw [hsync] at hends
    cases hends
  obtain ⟨outcome, attempts, hsaves, -, -, -, hpasses, hreasons⟩ := sync_reports_last_reason hsync
  rw [savedTwo_eq hsaves] at hstatuses
  have hstatus : outcome.passes.map Sync.Pass.status = [.applied, .applyFailed] :=
    Option.some.inj hstatuses
  have hall : outcome.passes.filter (fun p => p.attempts) = outcome.passes := by
    refine List.filter_eq_self.2 fun p hp => decide_eq_true ?_
    have hmem := hstatus ▸ List.mem_map_of_mem (f := Sync.Pass.status) hp
    simpa [Sync.Pass.attempts] using hmem
  have hattempts : (attempts.map fun a => a.pass.status) = [.applied, .applyFailed] := by
    rw [← hstatus, ← hall, ← hpasses, List.map_map]
    rfl
  have hlast := List.getLast?_map (f := fun a : Attempt => a.pass.status) (l := attempts)
  rw [hattempts] at hlast
  obtain ⟨last, hlast, hfailed⟩ := Option.map_eq_some_iff.1 hlast.symm
  have hmem := List.mem_of_getLast? hlast
  obtain ⟨reason, hreason, hreported⟩ := hreasons last hmem hfailed
  refine ⟨response, w', outcome, attempts, rfl, hsaves, hattempts, last, hmem, hfailed, reason, hreason,
    hreported.2 ?_⟩
  rw [hlast]
  exact hreason

/-- The first plan is not carried out, but the second one is, and no reason is reported. -/
theorem sync_omits_reason :
    ∃ response w' outcome attempts,
      sync requestOfTwo none .scripted (workspaceOfTwo [answerBehindChange]) = (.ok response, w') ∧
      Saves requestOfTwo none .scripted (workspaceOfTwo [answerBehindChange]) outcome w' ∧
      Attempted (hostOf requestOfTwo .scripted (workspaceOfTwo [answerBehindChange])) .scripted
        (workspaceOfTwo [answerBehindChange]) outcome.passes attempts w' ∧
      response.errors = ["Edit could not be applied.".toList] ∧
      ∃ a ∈ attempts, a.pass.status = .applyFailed ∧ a.reason = some staleReason ∧
        staleReason ∉ response.errors := by
  have herrors : (sync requestOfTwo none .scripted
      (workspaceOfTwo [answerBehindChange])).1.toOption.map Response.errors =
      some ["Edit could not be applied.".toList] := by decide +kernel
  have hfirst : (savedTwo [answerBehindChange]).1.toOption.map (fun o => o.passes.head?.map fun p =>
      (p.status, Sync.reasonLeft .scripted (workspaceOfTwo [answerBehindChange]) p)) =
      some (some (.applyFailed, some staleReason)) := by decide +kernel
  rcases hsync : sync requestOfTwo none .scripted (workspaceOfTwo [answerBehindChange])
    with ⟨fault | response, w'⟩
  · rw [hsync] at herrors
    cases herrors
  rw [hsync] at herrors
  have hresponse : response.errors = ["Edit could not be applied.".toList] :=
    Option.some.inj herrors
  obtain ⟨outcome, hsaves, -⟩ := exists_saves_of_sync hsync
  obtain ⟨attempts, hattempts⟩ := Sync.exists_attempted .scripted hsaves.trace
  rw [savedTwo_eq hsaves] at hfirst
  obtain ⟨p, hp, hleft⟩ := Option.map_eq_some_iff.1 (Option.some.inj hfirst)
  obtain ⟨hstatus, hreason⟩ := Prod.mk.inj hleft
  obtain ⟨rest, hrest⟩ := List.head?_eq_some_iff.1 hp
  have hmem := Attempted.mem_of_attempts (Or.inr hstatus) (hrest ▸ hattempts)
  refine ⟨response, w', outcome, attempts, rfl, hsaves, hattempts, hresponse, _, hmem, hstatus, hreason,
    ?_⟩
  rw [hresponse]
  decide

end Command

end PropAccord
