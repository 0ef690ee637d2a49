import PropAccord.Proofs.AcceptedSaves

/-!
# Runs over the same texts

Two workspaces that nothing hinders may have been asked different questions before. If the same texts
are read in their files, a synchronisation goes the same way in both: it reads nothing but texts, each
question is accepted, and each plan is carried out. So it comes to the same result and leaves the same
texts. If the files have the same bytes to begin with, they have the same bytes in the end.
-/

namespace PropAccord

set_option autoImplicit false

namespace Workspace

/-- Two workspaces that nothing hinders, with the same texts in the same files. If `identical` holds,
the files have the same bytes. -/
structure Twin (identical : Prop) (w w' : Workspace) : Prop where
  left : Unhindered w
  right : Unhindered w'
  texts : w.disk.SameTexts w'.disk
  disk : identical → w'.disk = w.disk

/-- In such workspaces the run comes to the same result, and it leaves such workspaces. -/
def Respects (identical : Prop) {α : Type} (m : Run Workspace α) : Prop :=
  ∀ w w', Twin identical w w' → (m w').1 = (m w).1 ∧ Twin identical (m w).2 (m w').2

namespace Respects

variable {identical : Prop} {α β : Type}

theorem pure (a : α) : Respects identical (Pure.pure a : Run Workspace α) := fun _ _ h => ⟨rfl, h⟩

theorem bind {m : Run Workspace α} {k : α → Run Workspace β} (hm : Respects identical m)
    (hk : ∀ a, Respects identical (k a)) : Respects identical (m >>= k) := by
  intro w w' h
  obtain ⟨hresult, htwin⟩ := hm w w' h
  rcases hrun : m w with ⟨result, w₁⟩
  rcases hrun' : m w' with ⟨result', w₁'⟩
  rw [hrun, hrun'] at hresult htwin
  obtain rfl : result' = result := hresult
  cases result' with
  | error halt =>
    rw [Sync.run_bind_of_error hrun, Sync.run_bind_of_error hrun']
    exact ⟨rfl, htwin⟩
  | ok a =>
    rw [Sync.run_bind_of_ok hrun, Sync.run_bind_of_ok hrun']
    exact hk a w₁ w₁' htwin

theorem tryRead {f : Workspace → Except Halt α}
    (hf : ∀ w w', w.disk.SameTexts w'.disk → f w' = f w) : Respects identical (Run.tryRead f) :=
  fun w w' h => ⟨hf w w' h.texts, h⟩

/-- Where only the report of a run depends on what went before, the runs leave such workspaces, and they
end both or stop both. -/
theorem ends_alike {m : Run Workspace α} (hm : Respects identical m) (report report' : α → β)
    {w w' : Workspace} (h : Twin identical w w') :
    Twin identical ((m >>= fun a => Pure.pure (report a)) w).2
        ((m >>= fun a => Pure.pure (report' a)) w').2 ∧
      ((∃ b, ((m >>= fun a => Pure.pure (report' a)) w').1 = .ok b) ↔
        ∃ b, ((m >>= fun a => Pure.pure (report a)) w).1 = .ok b) := by
  obtain ⟨hresult, htwin⟩ := hm w w' h
  rcases hrun : m w with ⟨result, w₁⟩
  rcases hrun' : m w' with ⟨result', w₁'⟩
  rw [hrun, hrun'] at hresult htwin
  obtain rfl : result' = result := hresult
  cases result' with
  | error halt =>
    rw [Sync.run_bind_of_error hrun, Sync.run_bind_of_error hrun']
    exact ⟨htwin, iff_of_false (fun ⟨_, hb⟩ => nomatch hb) (fun ⟨_, hb⟩ => nomatch hb)⟩
  | ok a =>
    rw [Sync.run_bind_of_ok hrun, Sync.run_bind_of_ok hrun']
    exact ⟨htwin, iff_of_true ⟨_, rfl⟩ ⟨_, rfl⟩⟩

end Respects

section

variable {identical : Prop} (root : Path) (cwd : List Text)

theorem respects_ask (prompt : Prompt) :
    Respects identical ((host root cwd .scripted).ask prompt) := by
  intro w w' h
  have hask (v : Workspace) :
      (host root cwd .scripted).ask prompt v = (.ok (v.choiceFor prompt), v.answered prompt) :=
    askScript_eq prompt v
  rw [hask, hask, h.left.choiceFor, h.right.choiceFor]
  refine ⟨rfl, h.left.answered prompt, h.right.answered prompt, ?_, fun hidentical => ?_⟩
  · rw [h.left.disk_answered, h.right.disk_answered]
    exact h.texts
  · rw [h.left.disk_answered, h.right.disk_answered, h.disk hidentical]

theorem respects_notify (message : Text) :
    Respects identical ((host root cwd .scripted).notify message) := fun _ _ h =>
  ⟨rfl, ⟨h.left.accepting, h.left.writable⟩, ⟨h.right.accepting, h.right.writable⟩, h.texts, h.disk⟩

/-- Whether a plan can be carried out is settled by the texts, since no write fails. -/
theorem respects_applyPlan (plan : Plan) :
    Respects identical ((host root cwd .scripted).applyPlan plan) := by
  intro w w' h
  change (applyPlan plan w').1 = (applyPlan plan w).1 ∧
    Twin identical (applyPlan plan w).2 (applyPlan plan w').2
  have hstays (error error' : Option Text) :
      Twin identical { w with lastError := error } { w' with lastError := error' } :=
    ⟨⟨h.left.accepting, h.left.writable⟩, ⟨h.right.accepting, h.right.writable⟩, h.texts, h.disk⟩
  have hrender := render_congr h.texts.readText plan.files
  cases hr : render w.disk plan.files with
  | ok rendered =>
    have hdone := applyPlan_of_forall_not_mem hr
      fun i _ => h.left.writable _ (Nat.le_add_right _ i)
    have hdone' := applyPlan_of_forall_not_mem (hrender.trans hr)
      fun i _ => h.right.writable _ (Nat.le_add_right _ i)
    rw [hdone, hdone']
    refine ⟨rfl, ⟨h.left.accepting, fun n hn => ?_⟩, ⟨h.right.accepting, fun n hn => ?_⟩, ?_, ?_⟩
    · exact h.left.writable n (Nat.le_trans (Nat.le_add_right _ _) hn)
    · exact h.right.writable n (Nat.le_trans (Nat.le_add_right _ _) hn)
    · exact h.texts.writeMany (isFile_of_mem_writesOf (sound_of_render hr))
    · exact fun hidentical => congrArg (Disk.writeMany · (writesOf rendered)) (h.disk hidentical)
  | error fault =>
    have hr' := hrender.trans hr
    cases fault with
    | broken fault =>
      simp only [applyPlan, hr, hr', true_and]
      exact hstays none none
    | stale path =>
      simp only [applyPlan, hr, hr', true_and]
      exact hstays _ _
    | unreadable fault =>
      cases fault <;> simp only [applyPlan, hr, hr', true_and] <;> exact hstays _ _

end

end Workspace

namespace Sync.Engine

open Workspace (Respects)

variable {root : Path} {cwd : List Text} {settings : Settings} {identical : Prop}

/-- Which documents are opened, and with which texts, is settled by the texts of the files. -/
theorem snapshots_congr {w w' : Workspace} (h : w.disk.SameTexts w'.disk) :
    (onDisk root cwd settings).snapshots w' = (onDisk root cwd settings).snapshots w := by
  have hcandidates (f : Discovery.Filter) : (Workspace.host root cwd .scripted).candidates f w' =
      (Workspace.host root cwd .scripted).candidates f w :=
    Workspace.candidates_congr h.alike h.outline f
  have hopen (p : Path) : (Workspace.host root cwd .scripted).openDocument p w' =
      (Workspace.host root cwd .scripted).openDocument p w := by
    change passOver (w'.openFile p) = passOver (w.openFile p)
    rw [Workspace.openFile, Workspace.openFile, h.readText]
  have hreadable (paths : List Path) : (Workspace.host root cwd .scripted).openReadable w' paths =
      (Workspace.host root cwd .scripted).openReadable w paths := by
    induction paths with
    | nil => rfl
    | cons p paths ih => rw [Host.openReadable, Host.openReadable, hopen, ih]
  change (Workspace.host root cwd .scripted).candidates _ w' >>= _ =
    (Workspace.host root cwd .scripted).candidates _ w >>= _
  rw [filter, hcandidates]
  exact congrArg _ (funext hreadable)

theorem respects_syncUsages (name : Text) (props : List Text) :
    Respects identical ((onDisk root cwd settings).syncUsages name props) := by
  unfold syncUsages
  refine Respects.bind (.tryRead fun w w' h => ?_) fun plan => ?_
  · rw [planUsages_eq, planUsages_eq, snapshots_congr h]
  · split
    · exact .pure _
    · refine (Workspace.respects_ask root cwd _).bind fun choice => ?_
      split
      · exact .pure _
      · refine (Workspace.respects_applyPlan root cwd plan).bind fun done => ?_
        split
        · exact (Workspace.respects_notify root cwd _).bind fun _ => .pure _
        · exact .pure _

theorem respects_syncDefinition (usage : Usage) :
    Respects identical ((onDisk root cwd settings).syncDefinition usage) := by
  unfold syncDefinition
  refine Respects.bind (.tryRead fun w w' h => ?_) fun located => ?_
  · rw [locate_eq, locate_eq, snapshots_congr h]
  · cases located with
    | none => exact .pure _
    | some located =>
      dsimp only
      split
      · exact .pure _
      · refine (Workspace.respects_ask root cwd _).bind fun choice => ?_
        split
        · exact .pure _
        · refine (Workspace.respects_applyPlan root cwd _).bind fun done => ?_
          split
          · exact (respects_syncUsages _ _).bind fun pushed => .pure _
          · exact .pure _

theorem respects_syncEach (seen : Seen) (usages : List Usage) :
    Respects identical ((onDisk root cwd settings).syncEach seen usages) := by
  induction usages generalizing seen with
  | nil => exact .pure []
  | cons usage rest ih =>
    rw [syncEach]
    refine Respects.bind ?_ fun passes => (ih _).bind fun others => .pure _
    rw [syncUsage]
    split
    · exact respects_syncDefinition usage
    · exact .pure []

end Sync.Engine

end PropAccord
