import LibMp.StreamCalls

/- Runs of the library are runs of the request machine.

   `OpOk K op w`: the conditions under which the machine follows the call `op`
   from the world `w` by steps that satisfy `K`. A run whose calls all meet
   their conditions is a run of the machine (`reach_moves`), and a call that
   stops leaves the machine where the stop says (`exec_halt`). Every invariant
   of the machine then holds in every reachable world. -/
namespace LibMp
variable {cfg : Config} {Good : Ans → Prop} {K : Lbl → Mach → Prop}

/-- Any answers. -/
def anyAns : Ans → Prop := fun _ => True

/-- Any step. -/
def anyStep : Lbl → Mach → Prop := fun _ _ => True

/-- What the machine asks of a call in the world `w`. -/
def OpOk (cfg : Config) (Good : Ans → Prop) (K : Lbl → Mach → Prop) (w : World) : Op → Prop
  | .isend .. | .irecv .. | .isendv .. | .irecvv .. | .iput .. | .iget .. | .isendOnStream .. | .isendvOnStream ..
  | .waitAll _ | .progressAll _ | .progress _ => True
  | .sendOnStream _ _ peer _ _ =>
    ∀ b c p, PostMoves cfg Good ⟨w, none⟩ b → cfg.clientIndex peer = some c → K (.armTail c p) b
  | .sendPrepare .. => cfg.useEventSync = true
  | .sendPost p _ => cfg.useEventSync = true ∧ PreparedSend w p ∧
    ∀ b c, PostMoves cfg Good ⟨w, none⟩ b → cfg.clientIndex (w.mem p).peer = some c → K (.armTail c p) b
  | .isendPost p _ => cfg.useEventSync = true ∧ PreparedSend w p
  | .sendPostAll ps _ => cfg.useEventSync = true ∧ (∀ p ∈ ps, PreparedSend w p) ∧
    ∀ b c q, PostMoves cfg Good ⟨w, none⟩ b → (∃ p ∈ ps, cfg.clientIndex (w.mem p).peer = some c) → K (.armTail c q) b
  | .isendPostAll ps _ => cfg.useEventSync = true ∧ ∀ p ∈ ps, PreparedSend w p
  | .waitOnStream p _ =>
    (cfg.useEventSync = true → (w.mem p).owner ≠ none ∧ ∀ c, cfg.clientIndex (w.mem p).peer = some c →
      (w.mem p).status ≠ .complete → (w.clients c).lastPostedTrackedId (w.mem p).type.flow < (w.mem p).id →
      K (.arm c (w.mem p).type.flow p) ⟨w, none⟩) ∧
    (cfg.useEventSync = false → (w.mem p).canBeWaited = true → K (.waitStream p) ⟨w, none⟩)
  | .waitAllOnStream ps _ => (cfg.useEventSync = true → ArmAll cfg K ⟨w, none⟩ ps) ∧
    (cfg.useEventSync = false → ∀ b p, p ∈ ps.takeWhile (fun q => (w.mem q).canBeWaited) →
      (b.w.mem p).status = (w.mem p).status → K (.waitStream p) b)
  | .descAddWaitSend _ p => cfg.useEventSync = false ∧ ((w.mem p).type.tx = true → (w.mem p).canBeWaited = true →
    ∀ b : Mach, b.w.mem = w.mem → K (.waitStream p) b)
  | .descAddWaitRecv _ p => cfg.useEventSync = false ∧ ((w.mem p).type.rx = true →
    ∀ b : Mach, b.w.mem = w.mem → K (.waitStream p) b)
  | .getWaitDesc p => cfg.useEventSync = false ∧ K (.waitStream p) ⟨w, none⟩
  | _ => False

theorem built_of_none {a : Mach} (h : a.cur = none) : a.Built := by intro p st; rw [h]; simp

theorem follows_only {a : Mach} {m : M Int} (h : Follows cfg Good K a m (fun _ b => b.Built)) :
    Follows cfg Good K a (only m) (fun _ b => b.Built) := Follows.bind h (fun _ _ hb => .pure hb)

section Run
variable (hK : ∀ l a, l.Basic → K l a) (hE : ∀ s ops a, K (.enqueue s ops) a) (hG : Good {})
include hK hE hG

theorem follows_run {w : World} {op : Op} (h : OpOk cfg Good K w op) :
    Follows cfg Good K ⟨w, none⟩ (op.run cfg) (fun _ b => b.Built) := by
  cases op with
  | isend buf size peer reg => exact follows_mpIsend hK hG _ _ _ _ _ rfl
  | irecv buf size peer reg => exact follows_mpIrecv hK hG _ _ _ _ _ rfl
  | isendv v peer reg => exact follows_mpIsendv hK hG _ _ _ _ rfl
  | irecvv v peer reg => exact follows_mpIrecvv hK hG _ _ _ _ rfl
  | iput src size reg peer displ win flags => exact follows_mpIput hK hG _ _ _ _ _ _ _ _ rfl
  | iget dst size reg peer displ win => exact follows_mpIget hK hG _ _ _ _ _ _ _ rfl
  | sendOnStream buf size peer reg s => exact follows_mpSendOnStream hK hE hG _ _ _ _ _ _ rfl h
  | isendOnStream buf size peer reg s => exact follows_mpIsendOnStream hK hE hG _ _ _ _ _ _ rfl
  | isendvOnStream v peer reg s => exact follows_mpIsendvOnStream hK hE hG _ _ _ _ _ rfl
  | sendPrepare buf size peer reg => exact follows_mpSendPrepare hK h _ _ _ _ _ rfl
  | sendPost p s => exact follows_only (follows_mpSendPostOnStream hK hE hG h.1 _ _ _ rfl h.2.1 h.2.2)
  | isendPost p s => exact follows_only (follows_mpIsendPostOnStream hK hE hG h.1 _ _ _ rfl h.2)
  | sendPostAll ps s => exact follows_only (follows_mpSendPostAllOnStream hK hE hG h.1 _ _ _ rfl h.2.1 h.2.2)
  | isendPostAll ps s => exact follows_only (follows_mpIsendPostAllOnStream hK hE hG h.1 _ _ _ rfl h.2)
  | waitOnStream p s =>
    exact follows_only ((follows_mpWaitOnStream hK hE hG _ _ _ rfl h.1 h.2).conseq (fun _ _ => built_of_none))
  | waitAllOnStream ps s =>
    exact follows_only ((follows_mpWaitAllOnStream hK hE hG _ _ _ rfl h.1 h.2).conseq (fun _ _ => built_of_none))
  | waitAll ps => exact follows_only ((follows_mpWaitAll hK hG _ _ rfl).conseq (fun _ _ => built_of_none))
  | progressAll ps =>
    exact follows_only ((follows_progressAllFrom (progress_of_basic hK) hG 0 ps _ (built_of_none rfl)).conseq
      (fun _ _ hb => hb.built (built_of_none rfl)))
  | progress f =>
    exact follows_only ((follows_mpProgressSingleFlow (progress_of_basic hK) hG f _ (built_of_none rfl)).conseq
      (fun _ _ hb => hb.built (built_of_none rfl)))
  | descAddWaitSend dq p =>
    exact follows_only ((follows_mpDescQueueAddWaitSend hK h.1 _ _ _ rfl h.2).conseq (fun _ _ => built_of_none))
  | descAddWaitRecv dq p =>
    exact follows_only ((follows_mpDescQueueAddWaitRecv hK h.1 _ _ _ rfl h.2).conseq (fun _ _ => built_of_none))
  | getWaitDesc p =>
    exact follows_only ((follows_getWaitDescriptors hG h.1 _ _ rfl h.2).conseq (fun _ _ => built_of_none))
  | _ => exact h.elim

end Run

/-! ## One event -/

/-- The conditions of the notes a successful stream wait leaves. -/
def NoteAll (cfg : Config) (K : Lbl → Mach → Prop) (s : Stream) (w : World) : List Ptr → Prop
  | [] => True
  | p :: rest =>
    K (.note ((cfg.clientIndex (w.mem p).peer).getD 0) (w.mem p).type.flow p s) ⟨w, none⟩ ∧
    NoteAll cfg K s (w.addLog (.waited ((cfg.clientIndex (w.mem p).peer).getD 0) (w.mem p).type.flow p (w.mem p).id s
      (w.streams s).count)) rest

theorem moves_noteWaits {s : Stream} {ps : List Ptr} {w : World} (h : NoteAll cfg K s w ps) :
    Moves (Move cfg Good K) ⟨w, none⟩ ⟨w.noteWaits cfg s ps, none⟩ := by
  induction ps generalizing w with
  | nil => exact .refl
  | cons p rest ih => exact .head ⟨_, h.1, Step.note⟩ (ih h.2)

/-- At the end of a call the request it still holds is left alone. -/
theorem moves_leave (hK : ∀ l a, l.Basic → K l a) {a : Mach} (ha : a.Built) :
    Moves (Move cfg Good K) a ⟨a.w, none⟩ := by
  obtain ⟨w, cur⟩ := a
  cases cur with
  | none => exact .refl
  | some k =>
    obtain ⟨p, st, b⟩ := k
    cases b with
    | false => exact absurd rfl (ha p st)
    | true => exact .single ⟨.leave, hK _ _ trivial, Step.leave⟩

section Exec
variable (hK : ∀ l a, l.Basic → K l a) {w : World} {op : Op} {tape : List Ans}
  (hf : Follows cfg Good K ⟨w, none⟩ (op.run cfg) (fun _ b => b.Built)) (ht : ∀ ans ∈ tape, Good ans)
include hK hf ht

/-- A call that comes back, or is in a loop, is a run of the machine. -/
theorem exec_moves (hN : ∀ req s st ps, op.run cfg ⟨w, tape⟩ = (.ok (0, req), s) → op.streamWait = some (st, ps) →
    NoteAll cfg K st s.w ps) (ha : alive (op.exec cfg tape w).1) :
    Moves (Move cfg Good K) ⟨w, none⟩ ⟨(op.exec cfg tape w).2, none⟩ := by
  obtain ⟨a, hm, hok, herr⟩ := hf ⟨w, none⟩ ⟨w, tape⟩ ⟨rfl, ht⟩ rfl
  unfold Op.exec at ha ⊢
  cases hr : op.run cfg ⟨w, tape⟩ with
  | mk r s =>
    rw [hr] at hok herr ha
    cases r with
    | error e =>
      have he : e = .spinning := ha
      subst he
      obtain ⟨hw, hb⟩ := herr _ rfl
      have := hm.trans (moves_leave hK hb)
      rw [hw] at this
      exact this
    | ok x =>
      obtain ⟨ret, req⟩ := x
      obtain ⟨hR, hb⟩ := hok _ rfl
      have hl := hm.trans (moves_leave hK hb)
      rw [hR.1] at hl
      cases hs : op.streamWait with
      | none => exact hl
      | some sp =>
        obtain ⟨st, ps⟩ := sp
        dsimp only
        split
        · rename_i h0
          refine hl.trans (moves_noteWaits (hN req s st ps ?_ hs))
          rw [← h0]
          exact hr
        · exact hl

omit hK in
/-- A call that stops leaves the machine where the stop says. -/
theorem exec_halt {e : Stop} (he : (op.exec cfg tape w).1 = .error e) :
    ∃ a s, Moves (Move cfg Good K) ⟨w, none⟩ a ∧ Halt cfg Good e a s := by
  obtain ⟨a, hm, hok, herr⟩ := hf ⟨w, none⟩ ⟨w, tape⟩ ⟨rfl, ht⟩ rfl
  unfold Op.exec at he
  cases hr : op.run cfg ⟨w, tape⟩ with
  | mk r s =>
    rw [hr] at herr he
    cases r with
    | error e' =>
      cases he
      exact ⟨a, _, hm, herr _ rfl⟩
    | ok x =>
      dsimp only at he
      cases hs : op.streamWait with
      | none => rw [hs] at he; cases he
      | some sp => rw [hs] at he; cases he

end Exec

/-! ## Runs -/

theorem coreInv_moves {a b : Mach} (h : CoreInv cfg a) (hm : Moves (Move cfg Good K) a b) : CoreInv cfg b :=
  Moves.inv (fun _ _ ha ⟨_, _, hs⟩ => Core.step ha hs) hm h

theorem coreInv_init : CoreInv cfg ⟨World.init, none⟩ := by
  obtain ⟨fl, h⟩ := Core.init cfg
  exact ⟨fl, _, h⟩

/-- A run whose events are all followed by the machine is a run of the machine. -/
theorem reach_moves {ok : Event → World → Prop}
    (hstep : ∀ w ev, CoreInv cfg ⟨w, none⟩ → Moves (Move cfg Good K) ⟨World.init, none⟩ ⟨w, none⟩ → ok ev w →
      alive (ev.exec cfg w).1 → Moves (Move cfg Good K) ⟨w, none⟩ ⟨(ev.exec cfg w).2, none⟩)
    {w : World} (h : Reach cfg ok w) : Moves (Move cfg Good K) ⟨World.init, none⟩ ⟨w, none⟩ := by
  induction h with
  | init => exact .refl
  | step ev _ hok ha ih => exact ih.trans (hstep _ ev (coreInv_moves coreInv_init ih) ih hok ha)

/-- The worlds a run gets to from `w`, by events that satisfy `ok` where they happen. -/
inductive Later (cfg : Config) (ok : Event → World → Prop) (w : World) : World → Prop where
  | refl : Later cfg ok w w
  | step {v : World} (ev : Event) : Later cfg ok w v → ok ev v → alive (ev.exec cfg v).1 →
      Later cfg ok w (ev.exec cfg v).2

theorem Later.moves {ok : Event → World → Prop}
    (hstep : ∀ v ev, ok ev v → alive (ev.exec cfg v).1 →
      Moves (Move cfg Good K) ⟨v, none⟩ ⟨(ev.exec cfg v).2, none⟩)
    {w v : World} (h : Later cfg ok w v) : Moves (Move cfg Good K) ⟨w, none⟩ ⟨v, none⟩ := by
  induction h with
  | refl => exact .refl
  | step ev _ hok ha ih => exact ih.trans (hstep _ ev hok ha)

theorem noteAll_of_forall (hN : ∀ c f p s a, K (.note c f p s) a) {s : Stream} {w : World} (ps : List Ptr) :
    NoteAll cfg K s w ps := by
  induction ps generalizing w with
  | nil => trivial
  | cons p rest ih => exact ⟨hN _ _ _ _ _, ih⟩

/-- One event. -/
theorem event_moves_noting (hK : ∀ l a, l.Basic → K l a) (hE : ∀ s ops a, K (.enqueue s ops) a) (hG : Good {})
    {w : World} {ev : Event}
    (hN : ∀ op tape req s st ps, ev = .call op tape → op.run cfg ⟨w, tape⟩ = (.ok (0, req), s) →
      op.streamWait = some (st, ps) → NoteAll cfg K st s.w ps)
    (hop : ∀ op tape, ev = .call op tape → OpOk cfg Good K w op ∧ ∀ ans ∈ tape, Good ans)
    (hgpu : ∀ g, ev = .gpu g → Good { gpu := [g] }) (ha : alive (ev.exec cfg w).1) :
    Moves (Move cfg Good K) ⟨w, none⟩ ⟨(ev.exec cfg w).2, none⟩ := by
  cases ev with
  | call op tape =>
    obtain ⟨hok, ht⟩ := hop op tape rfl
    exact exec_moves hK (follows_run hK hE hG hok) ht (fun req s st ps => hN op tape req s st ps rfl) ha
  | gpu g => exact (moves_gpu (progress_of_basic hK) (hgpu g rfl) List.mem_cons_self w none).1
  | work s tag =>
    have hops : EnqueueOk cfg w [.work tag] := enqueueOk_of_forall (by simp)
    exact .single ⟨.enqueue s [.work tag], hE _ _ _, Step.enqueue hops.1 hops.2⟩

/-- One event, where the notes of the waits are free. -/
theorem event_moves (hK : ∀ l a, l.Basic → K l a) (hE : ∀ s ops a, K (.enqueue s ops) a) (hG : Good {})
    (hN : ∀ c f p s a, K (.note c f p s) a) {w : World} {ev : Event}
    (hop : ∀ op tape, ev = .call op tape → OpOk cfg Good K w op ∧ ∀ ans ∈ tape, Good ans)
    (hgpu : ∀ g, ev = .gpu g → Good { gpu := [g] }) (ha : alive (ev.exec cfg w).1) :
    Moves (Move cfg Good K) ⟨w, none⟩ ⟨(ev.exec cfg w).2, none⟩ :=
  event_moves_noting hK hE hG (fun _ _ _ _ _ ps _ _ _ => noteAll_of_forall hN ps) hop hgpu ha

/-- `mp_init` takes no request. -/
theorem init_owner (p : Ptr) : (World.init.mem p).owner = none := by
  simp only [World.init, World.allocateRequests]
  split <;> rfl

/-- With the invariant, a live request is one that a call holds. -/
theorem live_iff_owner {w : World} (h : CoreInv cfg ⟨w, none⟩) (p : Ptr) : Live w p ↔ (w.mem p).owner ≠ none := by
  obtain ⟨fl, pl, h⟩ := h
  rw [h.owner p]
  constructor
  · rintro ⟨h1, h2⟩
    exact ⟨h1, h2 fl h.free⟩
  · rintro ⟨h1, h2⟩
    refine ⟨h1, fun l hl => ?_⟩
    rw [show l = fl from Linked.unique hl h.free]
    exact h2

end LibMp
