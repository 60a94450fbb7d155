import LibMp.Batch
import LibMp.Comm
import LibMp.Returns

/- What the parts of the calls of COMM do, as weakest preconditions.

   A call registers its buffer, asks libmp, deregisters on an error and records
   the request. Each part has one rule here, with any answers from outside; it
   says what the part leaves of the whole state, so that the calls need not be
   unfolded further. -/
namespace LibMp
variable {c : Comm}

/-! ## Calls of libmp -/

/-- Stops that are no write past an array. -/
def InArrays (e : CommStop) (_ : Comm) : Prop := e ≠ .overrun

theorem mp_ne_overrun (e : Stop) : CommStop.mp e ≠ .overrun := by
  intro h
  cases h

theorem exitCheck_ne_overrun : CommStop.exitCheck ≠ .overrun := by
  intro h
  cases h

theorem wp_mpCall {α : Type} {m : M α} {S : CommStop → Comm → Prop} {Q : α → Comm → Prop}
    (hS : ∀ e s, S (.mp e) s) (hQ : ∀ a y, m c.sys = (.ok a, y) → Q a { c with sys := y }) :
    Prog.wp (mpCall m) S Q c := by
  cases hm : m c.sys with
  | mk r y =>
    cases r with
    | ok a =>
      refine (Prog.wp_ok ?_).mpr (hQ a y hm)
      rw [mpCall, hm]
    | error e =>
      refine (Prog.wp_error ?_).mpr (hS e { c with sys := y })
      rw [mpCall, hm]

/-- A call whose error ends the process. -/
theorem wp_checked {α : Type} {m : M Int} {f : CM α} {S : CommStop → Comm → Prop} {Q : α → Comm → Prop}
    (hS : ∀ e s, S (.mp e) s) (hcheck : ∀ s, S .exitCheck s)
    (hQ : ∀ y, m c.sys = (.ok 0, y) → Prog.wp f S Q { c with sys := y }) :
    Prog.wp (do
      let result ← mpCall m
      check result
      f) S Q c := by
  rw [Prog.wp_bind]
  refine wp_mpCall hS fun result y hm => ?_
  rw [Prog.wp_bind, check, Prog.wp_require]
  split
  · rename_i h0
    rw [of_decide_eq_true h0] at hm
    exact hQ y hm
  · exact hcheck _

theorem commMpiRankToPeer_run {cc : CommConfig} {rank : Nat} (hrank : rank < cc.commSize) (c : Comm) :
    commMpiRankToPeer cc rank c = (.ok rank, c) := by
  rw [commMpiRankToPeer, Prog.require, if_pos (decide_eq_true hrank)]
  rfl

/-- A call of libmp that returns 0, under `COMM_CHECK`. -/
theorem checked_runs {m : M Int} {y : Sys} (hm : m c.sys = (.ok 0, y)) {α : Type} (f : CM α) :
    (do
      let result ← mpCall m
      check result
      f) c = f { c with sys := y } := by
  have hcall : mpCall m c = (.ok 0, { c with sys := y }) := by rw [mpCall, hm]
  rw [Prog.bind_ok hcall]
  rfl

/-- Answers were taken, and nothing else happened. -/
structure Answered (s s' : Sys) : Prop where
  world : s'.w = s.w
  tape : s'.tape <:+ s.tape

theorem Answered.refl (s : Sys) : Answered s s := ⟨rfl, List.suffix_refl _⟩

theorem Answered.succeeds {s s' : Sys} (h : Answered s s') (ht : Succeeds s.tape) : Succeeds s'.tape :=
  fun ans hans => ht ans (h.tape.subset hans)

theorem returnCode_answered {rc : Int} {s s' : Sys} (h : returnCode s = (.ok rc, s')) : Answered s s' := by
  rw [returnCode_eq s.w s.tape] at h
  cases h
  exact ⟨rfl, List.tail_suffix _⟩

/-! ## Registrations -/

/-- `sizeof`. -/
def MpiType.sizeof : MpiType → Nat
  | .double => 8
  | .float => 4
  | .char => 1
  | .int => 4
  | .other => 0

/-- The registrations after `comm_register`. -/
def Registrations.ensure (r : Registrations) (creg : Nat) : Registrations :=
  if r.creg creg = none then r.register creg else r

/-- The registrations after `comm_deregister`. -/
def Registrations.drop (r : Registrations) (creg : Nat) : Registrations :=
  match r.creg creg with
  | none => r
  | some h => r.deregister creg h

theorem mpRegister_answered {ret : Int} {s y : Sys} (h : mpRegister s = (.ok ret, y)) : Answered s y := by
  obtain ⟨rc, y', hrc, h₂⟩ := Prog.bind_eq_ok h
  obtain ⟨-, h₄⟩ := require_bind_ok h₂
  cases h₄
  exact returnCode_answered hrc

theorem commRegister_spec (size creg : Nat) : Prog.wp (commRegister size creg) InArrays (fun ret c' => ret = 0 →
    size ≠ 0 ∧ ∃ y, Answered c.sys y ∧ c' = { c with sys := y, regs := c.regs.ensure creg }) c := by
  unfold commRegister
  split
  · exact fun h0 => absurd h0 (by decide)
  · rename_i hsize
    rw [Prog.wp_bind, Prog.wp_get]
    split
    · rename_i hnone
      refine wp_checked (fun e _ => mp_ne_overrun e) (fun _ => exitCheck_ne_overrun) fun y hy _ => ?_
      refine ⟨hsize, y, mpRegister_answered hy, ?_⟩
      rw [Registrations.ensure, if_pos hnone]
    · rename_i hsome
      refine fun _ => ⟨hsize, c.sys, .refl _, ?_⟩
      rw [Registrations.ensure, if_neg hsome]

/-- `comm_deregister` leaves no registration in `*creg`. -/
theorem commDeregister_spec (creg : Nat) : Prog.wp (commDeregister creg) InArrays
    (fun _ c' => ∃ y, Answered c.sys y ∧ c' = { c with sys := y, regs := c.regs.drop creg }) c := by
  rw [commDeregister, Prog.wp_bind, Prog.wp_get, Registrations.drop]
  cases hreg : c.regs.creg creg with
  | none => exact ⟨c.sys, .refl _, rfl⟩
  | some h =>
    refine wp_checked (fun e _ => mp_ne_overrun e) (fun _ => exitCheck_ne_overrun) fun y hy => ?_
    exact ⟨y, returnCode_answered hy, rfl⟩

/-! ## The first part and the last part of a posting call -/

theorem commPrelude_spec (cc : CommConfig) (size : Nat) (type : MpiType) (creg rank : Nat) :
    Prog.wp (commPrelude cc size type creg rank) InArrays
      (fun x c' => x.1 = size * type.sizeof % 2 ^ 64 ∧ x.1 ≠ 0 ∧
        ∃ y, Answered c.sys y ∧ c' = { c with sys := y, regs := c.regs.ensure creg }) c := by
  have hsize : Prog.wp (commSizeOfMpiType type) InArrays (fun n c' => n = type.sizeof ∧ c' = c) c := by
    cases type <;> first | exact ⟨rfl, rfl⟩ | exact nofun
  unfold commPrelude
  rw [Prog.wp_bind]
  refine Prog.wp_mono hsize (fun _ _ he => he) ?_
  rintro n c₁ ⟨rfl, rfl⟩
  rw [Prog.wp_bind, commMpiRankToPeer, Prog.wp_bind, Prog.wp_require]
  split
  · rw [Prog.wp_pure, Prog.wp_bind]
    refine Prog.wp_mono (commRegister_spec _ creg) (fun _ _ he => he) fun result c₂ hreg => ?_
    rw [Prog.wp_bind, check, Prog.wp_require]
    split
    · rename_i h0
      exact ⟨rfl, hreg (of_decide_eq_true h0)⟩
    · exact nofun
  · exact nofun

/-- A request is recorded if there is room. -/
theorem commTrackRequest_spec (p : Ptr) : Prog.wp (commTrackRequest p) InArrays
    (fun _ c' => c.reqs.length < maxReqs ∧
      c' = { c with reqs := c.reqs ++ [⟨p, (c.sys.w.mem p).peer, (c.sys.w.mem p).id⟩] }) c := by
  rw [commTrackRequest, Prog.wp_bind, Prog.wp_get, Prog.wp_bind, Prog.wp_require]
  split
  · rename_i hroom
    exact ⟨of_decide_eq_true hroom, rfl⟩
  · exact nofun

end LibMp
