import LibMp.Runs

/- Reading off a result what the parts of a call have returned: the other
   direction of the run equations. And what a call has added to the log. -/
namespace LibMp
variable {cfg : Config}

theorem request_ok {p : Ptr} {r : Request} {s s' : Sys} (h : request p s = (.ok r, s')) : r = s.w.mem p ∧ s' = s := by
  cases h
  exact ⟨rfl, rfl⟩

theorem client_ok {c : Nat} {cl : Client} {s s' : Sys} (h : client c s = (.ok cl, s')) :
    cl = s.w.clients c ∧ s' = s := by
  cases h
  exact ⟨rfl, rfl⟩

theorem clientOf_ok {peer c : Nat} {s s' : Sys} (h : clientOf cfg peer s = (.ok c, s')) :
    cfg.clientIndex peer = some c ∧ s' = s := by
  cases hd : cfg.clientIndex peer with
  | none => rw [clientOf, hd] at h; cases h
  | some d => rw [clientOf, hd] at h; cases h; exact ⟨rfl, rfl⟩

/-- A call that returns has found the client of its peer. -/
theorem clientOf_bind_ok {β : Type} {peer : Nat} {g : Nat → M β} {x : β} {s s' : Sys}
    (h : (clientOf cfg peer >>= g) s = (.ok x, s')) : ∃ c, cfg.clientIndex peer = some c ∧ g c s = (.ok x, s') := by
  obtain ⟨c, s₁, h₁, h₂⟩ := Prog.bind_eq_ok h
  obtain ⟨hc, rfl⟩ := clientOf_ok h₁
  exact ⟨c, hc, h₂⟩

theorem update_ok {g : World → World} {u : Unit} {s s' : Sys} (h : update g s = (.ok u, s')) :
    s' = { s with w := g s.w } := by
  cases h
  rfl

theorem returnCode_ok {rc : Int} {s s' : Sys} (h : returnCode s = (.ok rc, s')) : s'.w = s.w := by
  unfold returnCode answer at h
  obtain ⟨a, s₁, h₁, h₂⟩ := Prog.bind_eq_ok h
  split at h₁ <;> cases h₁ <;> cases h₂ <;> rfl

theorem gdsStreamPostDescriptors_ok {st : Stream} {descs : List StreamOp} {s s' : Sys}
    (h : gdsStreamPostDescriptors st descs s = (.ok 0, s')) : s'.w = s.w.enqueue st descs := by
  obtain ⟨rc, s₁, h₁, h₂⟩ := Prog.bind_eq_ok h
  have hw := returnCode_ok h₁
  split at h₂
  · cases h₂
    show s₁.w.enqueue st descs = _
    rw [hw]
  · rename_i hrc
    cases h₂
    exact absurd rfl hrc

/-- The return code the next call to the outside gets. -/
def rcOf (tape : List Ans) : Int := (tape.headD {}).rc

theorem returnCode_eq (w : World) (tape : List Ans) : returnCode ⟨w, tape⟩ = (.ok (rcOf tape), ⟨w, tape.tail⟩) := by
  cases tape <;> rfl

theorem timeout_ok {late : Bool} {s s' : Sys} (h : timeout s = (.ok late, s')) : s'.w = s.w := by
  unfold timeout answer at h
  obtain ⟨a, s₁, h₁, h₂⟩ := Prog.bind_eq_ok h
  split at h₁ <;> cases h₁ <;> cases h₂ <;> rfl

theorem mpCheckGpuError_ok {rc : Int} {s s' : Sys} (h : mpCheckGpuError s = (.ok rc, s')) : s'.w = s.w := by
  obtain ⟨r, s₁, h₁, h₂⟩ := Prog.bind_eq_ok h
  cases h₂
  exact returnCode_ok h₁

/-! ## What is added to the log -/

/-- What was added to the log from `w` to `w'`. -/
def newLog (w w' : World) : List LogEv := w'.log.drop w.log.length

/-- The events added from `w` to `w'` all satisfy `P`. -/
def Adds (P : LogEv → Prop) (w w' : World) : Prop := ∃ l, w'.log = w.log ++ l ∧ ∀ e ∈ l, P e

/-- The event puts no request back. -/
def LogEv.NotReleased : LogEv → Prop
  | .released _ _ _ => False
  | _ => True

namespace Adds
variable {P P' : LogEv → Prop} {w₁ w₂ w₃ : World}

theorem refl : Adds P w₁ w₁ := ⟨[], by simp, by simp⟩

theorem of_log (h : w₂.log = w₁.log) : Adds P w₁ w₂ := ⟨[], by simp [h], by simp⟩

theorem trans (h₁ : Adds P w₁ w₂) (h₂ : Adds P w₂ w₃) : Adds P w₁ w₃ := by
  obtain ⟨l₁, e₁, p₁⟩ := h₁
  obtain ⟨l₂, e₂, p₂⟩ := h₂
  refine ⟨l₁ ++ l₂, by rw [e₂, e₁, List.append_assoc], fun e he => ?_⟩
  rcases List.mem_append.mp he with he | he
  · exact p₁ e he
  · exact p₂ e he

theorem mono (h : Adds P w₁ w₂) (hp : ∀ e, P e → P' e) : Adds P' w₁ w₂ := by
  obtain ⟨l, e₁, p₁⟩ := h
  exact ⟨l, e₁, fun e he => hp e (p₁ e he)⟩

theorem newLog (h : Adds P w₁ w₂) : ∀ e ∈ LibMp.newLog w₁ w₂, P e := by
  obtain ⟨l, e₁, p₁⟩ := h
  rw [LibMp.newLog, e₁, List.drop_left]
  exact p₁

end Adds

end LibMp
