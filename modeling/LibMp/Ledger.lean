import LibMp.Runs

/- What becomes of an operation, over a whole run.

   A request that is taken for a client gets the next id of the client, and the
   client and the id name the operation for good, while the request is recycled.
   The life of an operation is read off the log: its work request is accepted,
   its completion is polled, its request goes back to the pool (`life`). The
   ledger says where the operations stand: one whose request has not been given
   to the HCA has no life yet; an entry of a completion queue was accepted and
   not polled; a complete request was accepted and polled; and each id was given
   out to one request, which still holds it unless its life is over. -/
namespace LibMp
variable {cfg : Config} {Good : Ans → Prop}

inductive Phase where
  | accepted
  | polled
  | released
  deriving DecidableEq, Repr

/-- The part of an event in the life of operation `op` of client `c`. -/
def LogEv.phase (cfg : Config) (c op : Nat) : LogEv → Option Phase
  | .accepted d _ _ o => if d = c ∧ o = op then some .accepted else none
  | .polled d _ _ o => if d = c ∧ o = op then some .polled else none
  | .released _ peer o => if cfg.clientIndex peer = some c ∧ o = op then some .released else none
  | _ => none

def life (cfg : Config) (log : List LogEv) (c op : Nat) : List Phase := log.filterMap (LogEv.phase cfg c op)

def wholeLife : List Phase := [.accepted, .polled, .released]

/-- The request at `p` is held for operation `op` of client `c`. -/
structure Holds (cfg : Config) (w : World) (p : Ptr) (c op : Nat) : Prop where
  owner : (w.mem p).owner ≠ none
  client : cfg.clientIndex (w.mem p).peer = some c
  id : (w.mem p).id = op

/-- What a step from `a` adds to a life. -/
def Lbl.phases (cfg : Config) (a : Mach) (c op : Nat) : Lbl → List Phase
  | .accept d _ p | .handOver d _ p => if d = c ∧ (a.w.mem p).id = op then [.accepted] else []
  | .reap d f k =>
    match (a.w.cq d f)[k]? with
    | some wr => if d = c ∧ (a.w.mem wr.wrId).id = op then [.polled] else []
    | none => []
  | .release p => if cfg.clientIndex (a.w.mem p).peer = some c ∧ (a.w.mem p).id = op then [.released] else []
  | _ => []

section Step
variable {l : Lbl} {a b : Mach} {p q : Ptr} {c op : Nat}

theorem step_life (hs : Step cfg Good l a b) (c op : Nat) :
    life cfg b.w.log c op = life cfg a.w.log c op ++ l.phases cfg a c op := by
  unfold life
  rw [step_log hs, List.filterMap_append]
  congr 1
  cases l with
  | accept d f p | handOver d f p =>
    simp only [Lbl.log, Lbl.phases]
    split
    · rename_i h
      simp [LogEv.phase, h]
    · rename_i h
      simp [LogEv.phase, h]
  | reap d f k =>
    simp only [Lbl.log, Lbl.phases]
    cases (a.w.cq d f)[k]? with
    | none => rfl
    | some wr =>
      dsimp only
      split
      · rename_i h
        simp [LogEv.phase, h]
      · rename_i h
        simp [LogEv.phase, h]
  | release p =>
    simp only [Lbl.log, Lbl.phases]
    split
    · rename_i h
      simp [LogEv.phase, h]
    · rename_i h
      simp [LogEv.phase, h]
  | gpu s =>
    refine List.filterMap_eq_nil_iff.mpr fun e he => ?_
    obtain ⟨o, rest, -, -, rfl⟩ := mem_log_gpu he
    rfl
  | _ => rfl

/-- A request that was held is held for the same operation until it is released. -/
theorem Holds.step (h : Holds cfg a.w p c op) (hc : CoreInv cfg a) (hs : Step cfg Good l a b)
    (hl : l ≠ .release p) : Holds cfg b.w p c op := by
  rcases step_held hc hs h.owner with hrel | ⟨-, hpeer, hid, hown⟩
  · exact absurd hrel hl
  · exact ⟨by rw [hown]; exact h.owner, by rw [hpeer]; exact h.client, by rw [hid]; exact h.id⟩

/-- Nothing but taking a request makes a request held. -/
theorem Holds.of_step (h : Holds cfg b.w p c op) (hc : CoreInv cfg a) (hs : Step cfg Good l a b) :
    (Holds cfg a.w p c op ∧ l ≠ .release p) ∨
      ∃ fn, l = .take fn c ∧ p = a.w.nextFree ∧ op = (a.w.clients c).lastReqId + 1 := by
  by_cases ho : (a.w.mem p).owner = none
  · cases step_req hs p with
    | take fn d hq hpeer hid =>
      obtain rfl : d = c := Option.some.inj (hpeer.symm.trans h.client)
      exact .inr ⟨fn, rfl, hq, h.id.symm.trans hid⟩
    | same hsame => exact absurd (hsame.2.2.2.2.1.trans ho) h.owner
    | release _ ho' => exact absurd ho' h.owner
    | reap _ _ hsame | handOver hsame | waitCpu hsame | waitStream hsame =>
      exact absurd (hsame.2.2.2.1.trans ho) h.owner
    | arm hsame | armTail hsame => exact absurd (by rw [hsame]; exact ho) h.owner
  · rcases step_held hc hs ho with rfl | ⟨-, hpeer, hid, hown⟩
    · cases hs with
      | release => exact absurd (by simp [World.release]) h.owner
    · refine .inl ⟨⟨ho, by rw [← hpeer]; exact h.client, by rw [← hid]; exact h.id⟩, ?_⟩
      rintro rfl
      cases hs with
      | release => exact h.owner (by simp [World.release])

end Step

/-- The work request of a put with `MP_PUT_NOWAIT` was accepted: no completion
will come, and its request stays pending for good. -/
structure Unsignaled (cfg : Config) (a : Mach) (p : Ptr) (c op : Nat) : Prop extends Holds cfg a.w p c op where
  flags : nowait (a.w.mem p).flags = true
  pending : (a.w.mem p).status.isPending
  notInHand : ∀ k, a.cur = some k → k.ptr ≠ p
  notQueued : ∀ d g, ∀ wr ∈ a.w.cq d g, wr.wrId ≠ p

/-- What a step has to leave for that to go on. -/
theorem Unsignaled.keep {l : Lbl} {a b : Mach} {p : Ptr} {c op : Nat} (h : Unsignaled cfg a p c op)
    (hc : CoreInv cfg a) (hs : Step cfg Good l a b) (hl : l ≠ .release p)
    (hcq : ∀ d g, ∀ wr ∈ b.w.cq d g, wr.wrId ≠ p) (hpend : (b.w.mem p).status.isPending)
    (hhand : ∀ k, b.cur = some k → k.ptr ≠ p) : Unsignaled cfg b p c op where
  toHolds := h.toHolds.step hc hs hl
  flags := by
    rcases step_flags hc hs h.owner with hf | ⟨k, hk, hp⟩
    · rw [hf]
      exact h.flags
    · exact absurd hp (h.notInHand k hk)
  pending := hpend
  notInHand := hhand
  notQueued := hcq

/-- See the head of the file. -/
structure Ledger (cfg : Config) (a : Mach) : Prop where
  known : ∀ p, (a.w.mem p).owner ≠ none → ∃ c op, Holds cfg a.w p c op
  distinct : ∀ p q c op, Holds cfg a.w p c op → Holds cfg a.w q c op → p = q
  taken : ∀ p c op, Holds cfg a.w p c op → 0 < op ∧ op ≤ (a.w.clients c).lastReqId
  untaken : ∀ c op, op = 0 ∨ (a.w.clients c).lastReqId < op → life cfg a.w.log c op = []
  unposted : ∀ p c op, Holds cfg a.w p c op → (a.w.mem p).status = .prepared ∨ (∃ k, a.cur = some k ∧ k.ptr = p) →
    life cfg a.w.log c op = []
  queued : ∀ c f, ∀ wr ∈ a.w.cq c f, life cfg a.w.log c wr.op = [.accepted]
  complete : ∀ p c op, Holds cfg a.w p c op → (a.w.mem p).status = .complete →
    life cfg a.w.log c op = [.accepted, .polled]
  held : ∀ c op, 0 < op → op ≤ (a.w.clients c).lastReqId →
    ((∃ p, Holds cfg a.w p c op) ↔ life cfg a.w.log c op ≠ wholeLife)
  outstanding : ∀ c op, life cfg a.w.log c op = [.accepted] →
    (∃ f, ∃ wr ∈ a.w.cq c f, wr.op = op) ∨ ∃ p, Unsignaled cfg a p c op
  begun : ∀ c op, life cfg a.w.log c op <+: wholeLife

namespace Ledger
variable {l : Lbl} {a b : Mach} {p : Ptr} {c op : Nat}

theorem init : Ledger cfg ⟨World.init, none⟩ := by
  have hnone : ∀ p c op, ¬ Holds cfg World.init p c op := fun p c op h => h.owner (init_owner p)
  have hlife : ∀ c op, life cfg World.init.log c op = [] := fun c op => rfl
  have hids : ∀ c, (World.init.clients c).lastReqId = 0 := fun c => rfl
  refine ⟨?_, ?_, ?_, ?_, ?_, ?_, ?_, ?_, ?_, ?_⟩
  · exact fun p hp => absurd (init_owner p) hp
  · exact fun p q c op hp => absurd hp (hnone p c op)
  · exact fun p c op hp => absurd hp (hnone p c op)
  · exact fun c op _ => hlife c op
  · exact fun p c op hp => absurd hp (hnone p c op)
  · exact fun c f wr hwr => by cases hwr
  · exact fun p c op hp => absurd hp (hnone p c op)
  · intro c op h0 hle
    rw [show ((⟨World.init, none⟩ : Mach).w.clients c).lastReqId = 0 from hids c] at hle
    omega
  · intro c op h
    rw [show life cfg (⟨World.init, none⟩ : Mach).w.log c op = [] from hlife c op] at h
    cases h
  · intro c op
    rw [show life cfg (⟨World.init, none⟩ : Mach).w.log c op = [] from hlife c op]
    exact List.nil_prefix

/-- An entry of a completion queue is held for its operation. -/
theorem queued_holds {fl : List Ptr} {pl : Nat → List Ptr} (hc : Core cfg a fl pl) {f : Flow} {wr : Wr}
    (hwr : wr ∈ a.w.cq c f) : Holds cfg a.w wr.wrId c wr.op := by
  obtain ⟨ho, hat, hid, -⟩ := hc.cq_mem c f wr hwr
  exact ⟨ho, hat.1, hid⟩

theorem known_step (h : Ledger cfg a) (hc : CoreInv cfg a) (hs : Step cfg Good l a b) (ho : (b.w.mem p).owner ≠ none) :
    ∃ c op, Holds cfg b.w p c op := by
  by_cases hoa : (a.w.mem p).owner = none
  · obtain ⟨fn, c, -, hcl, -⟩ := step_fresh hs hoa ho
    exact ⟨c, _, ho, hcl, rfl⟩
  · obtain ⟨c, op, hp⟩ := h.known p hoa
    refine ⟨c, op, hp.step hc hs ?_⟩
    rintro rfl
    cases hs with
    | release => exact ho (by simp [World.release])

/-! ## Steps that no life notices -/

/-- The steps that neither take nor release a request nor concern its work
request. -/
def Quiet : Lbl → Prop
  | .take .. | .accept .. | .reap .. | .handOver .. | .release .. => False
  | _ => True

theorem quiet_status (hs : Step cfg Good l a b) (hq : Quiet l) (p : Ptr) :
    (b.w.mem p).status = (a.w.mem p).status ∨ ((b.w.mem p).status = .pending ∧
      ((a.w.mem p).status = .pendingNowait ∨ (a.w.mem p).status = .complete)) := by
  cases step_req hs p with
  | same h => exact .inl h.2.2.2.1
  | take | release | reap | handOver => exact hq.elim
  | waitCpu _ hst hst' => exact .inr ⟨hst', .inl hst⟩
  | waitStream _ hst hst' => exact .inr ⟨hst', hst⟩
  | arm h | armTail h => exact .inl (by rw [h])

theorem quiet_hand (hc : CoreInv cfg a) (hs : Step cfg Good l a b) (hq : Quiet l) {k : Cur} (hk : b.cur = some k) :
    (∃ k', a.cur = some k' ∧ k'.ptr = k.ptr) ∨ (a.w.mem k.ptr).status = .prepared := by
  rcases step_hand hs hk with ⟨k', hk', hp, -⟩ | ⟨fn, c, rfl, -⟩ | ⟨c, rfl, -⟩
  · exact .inl ⟨k', hk', hp⟩
  · exact hq.elim
  · cases hs with
    | stamp _ hat hcur =>
      rcases hcur with hcur | ⟨ho, -, hlt⟩
      · exact .inl ⟨_, hcur, rfl⟩
      · obtain ⟨fl, pl, hcore⟩ := hc
        exact .inr (hcore.prepared_ok _ c ho hat hlt).1

theorem quiet (h : Ledger cfg a) (hc : CoreInv cfg a) (hs : Step cfg Good l a b) (hq : Quiet l) : Ledger cfg b := by
  have hlife : ∀ c op, life cfg b.w.log c op = life cfg a.w.log c op := by
    intro c op
    rw [step_life hs]
    cases l <;> first | exact hq.elim | exact List.append_nil _
  have hids : ∀ c, (b.w.clients c).lastReqId = (a.w.clients c).lastReqId := by
    intro c
    rw [step_lastReqId hs]
    cases l <;> first | exact hq.elim | rfl
  have hcq : ∀ d g, b.w.cq d g = a.w.cq d g := by
    intro d g
    rw [step_cq hs]
    cases l <;> first | exact hq.elim | rfl
  have hrel : ∀ p, l ≠ .release p := by
    rintro p rfl
    exact hq
  have hback : ∀ {p c op}, Holds cfg b.w p c op → Holds cfg a.w p c op := by
    intro p c op hp
    rcases hp.of_step hc hs with ⟨hp', -⟩ | ⟨fn, rfl, -⟩
    · exact hp'
    · exact hq.elim
  refine ⟨fun _ ho => h.known_step hc hs ho, fun p q c op hp hr => h.distinct p q c op (hback hp) (hback hr),
    fun p c op hp => ?_, fun c op ho => ?_, fun p c op hp hst => ?_, fun c f wr hwr => ?_, fun p c op hp hst => ?_,
    fun c op h0 hle => ?_, fun c op ho => ?_, fun c op => ?_⟩
  · rw [hids]
    exact h.taken p c op (hback hp)
  · rw [hids] at ho
    rw [hlife]
    exact h.untaken c op ho
  · rw [hlife]
    refine h.unposted p c op (hback hp) ?_
    rcases hst with hst | ⟨k, hk, rfl⟩
    · rcases quiet_status hs hq p with he | ⟨he, -⟩
      · exact .inl (he.symm.trans hst)
      · rw [he] at hst
        cases hst
    · rcases quiet_hand hc hs hq hk with hk' | hprep
      · exact .inr hk'
      · exact .inl hprep
  · rw [hcq] at hwr
    rw [hlife]
    exact h.queued c f wr hwr
  · rw [hlife]
    refine h.complete p c op (hback hp) ?_
    rcases quiet_status hs hq p with he | ⟨he, -⟩
    · exact he.symm.trans hst
    · rw [he] at hst
      cases hst
  · rw [hids] at hle
    rw [hlife, ← h.held c op h0 hle]
    exact ⟨fun ⟨p, hp⟩ => ⟨p, hback hp⟩, fun ⟨p, hp⟩ => ⟨p, hp.step hc hs (hrel p)⟩⟩
  · rw [hlife] at ho
    rcases h.outstanding c op ho with ⟨f, wr, hwr, he⟩ | ⟨p, hp⟩
    · exact .inl ⟨f, wr, by rw [hcq]; exact hwr, he⟩
    · refine .inr ⟨p, hp.keep hc hs (hrel p) (fun d g wr hwr => ?_) ?_ fun k hk hkp => ?_⟩
      · rw [hcq] at hwr
        exact hp.notQueued d g wr hwr
      · rcases quiet_status hs hq p with he | ⟨he, -⟩
        · rw [he]
          exact hp.pending
        · rw [he]
          trivial
      · rcases quiet_hand hc hs hq hk with ⟨k', hk', hp'⟩ | hprep
        · exact hp.notInHand k' hk' (hp'.trans hkp)
        · have hpend := hp.pending
          rw [← hkp, hprep] at hpend
          exact hpend
  · rw [hlife]
    exact h.begun c op

/-! ## The others -/

/-- A call takes a request. -/
theorem take {fn : Fn} {d : Nat} (h : Ledger cfg a) (hc : CoreInv cfg a) (hs : Step cfg Good (.take fn d) a b) :
    Ledger cfg b := by
  have hlife : ∀ c op, life cfg b.w.log c op = life cfg a.w.log c op := by
    intro c op
    rw [step_life hs]
    exact List.append_nil _
  have hids : ∀ c, (b.w.clients c).lastReqId =
      if c = d then (a.w.clients c).lastReqId + 1 else (a.w.clients c).lastReqId := step_lastReqId hs
  have hcq : ∀ c g, b.w.cq c g = a.w.cq c g := step_cq hs
  have hcore : CoreInv cfg ⟨a.w, none⟩ := by
    cases hs
    exact hc
  have hfree := nextFree_free hcore
  have hother : ∀ q, (a.w.mem q).owner ≠ none → (b.w.mem q).status = (a.w.mem q).status := by
    intro q hq
    cases step_req hs q with
    | same hsame => exact hsame.2.2.2.1
    | take _ _ hq' => exact absurd (hq' ▸ hfree.1) hq
  have hnew : (b.w.mem a.w.nextFree).status = .prepared ∨ (b.w.mem a.w.nextFree).status.isPending :=
    (step_taken hs).2.2.2.2
  have hhand : ∀ k, b.cur = some k → k.ptr = a.w.nextFree := by
    intro k hk
    cases hs
    cases hk
    rfl
  have hback : ∀ {p c op}, Holds cfg b.w p c op →
      Holds cfg a.w p c op ∨ (p = a.w.nextFree ∧ c = d ∧ op = (a.w.clients d).lastReqId + 1) := by
    intro p c op hp
    rcases hp.of_step hc hs with ⟨hp', -⟩ | ⟨fn', hl, hq, hop⟩
    · exact .inl hp'
    · cases hl
      exact .inr ⟨hq, rfl, hop⟩
  have hlast : life cfg a.w.log d ((a.w.clients d).lastReqId + 1) = [] := h.untaken _ _ (.inr (Nat.lt_succ_self _))
  refine ⟨fun _ ho => h.known_step hc hs ho, fun p q c op hp hq => ?_, fun p c op hp => ?_, fun c op ho => ?_,
    fun p c op hp hst => ?_, fun c f wr hwr => ?_, fun p c op hp hst => ?_, fun c op h0 hle => ?_, fun c op ho => ?_,
    fun c op => ?_⟩
  · -- the new operation has a new id
    rcases hback hp with hp' | ⟨rfl, rfl, rfl⟩ <;> rcases hback hq with hq' | ⟨rfl, hcd, hop⟩
    · exact h.distinct p q c op hp' hq'
    · subst hcd hop
      have := (h.taken p _ _ hp').2
      omega
    · have := (h.taken q _ _ hq').2
      omega
    · rfl
  · have hle := hids c
    rcases hback hp with hp' | ⟨-, rfl, rfl⟩
    · obtain ⟨h0, h1⟩ := h.taken p c op hp'
      refine ⟨h0, ?_⟩
      split at hle <;> omega
    · rw [if_pos rfl] at hle
      omega
  · rw [hlife]
    refine h.untaken c op ?_
    have hle := hids c
    rcases ho with ho | ho
    · exact .inl ho
    · refine .inr ?_
      split at hle <;> omega
  · rw [hlife]
    rcases hback hp with hp' | ⟨-, rfl, rfl⟩
    · refine h.unposted p c op hp' ?_
      rcases hst with hst | ⟨k, hk, rfl⟩
      · exact .inl ((hother p hp'.owner).symm.trans hst)
      · exact absurd (hhand k hk ▸ hfree.1) hp'.owner
    · exact hlast
  · rw [hcq] at hwr
    rw [hlife]
    exact h.queued c f wr hwr
  · rcases hback hp with hp' | ⟨rfl, -, -⟩
    · rw [hlife]
      exact h.complete p c op hp' ((hother p hp'.owner).symm.trans hst)
    · rcases hnew with hn | hn
      · rw [hst] at hn
        cases hn
      · rw [hst] at hn
        exact hn.elim
  · rw [hlife]
    by_cases hnewop : c = d ∧ op = (a.w.clients d).lastReqId + 1
    · obtain ⟨rfl, rfl⟩ := hnewop
      rw [hlast]
      obtain ⟨hcl, hid, hown, -⟩ := step_taken hs
      refine ⟨fun _ hnil => ?_, fun _ => ⟨_, by rw [hown]; simp, hcl, hid⟩⟩
      cases hnil
    · have hle' : op ≤ (a.w.clients c).lastReqId := by
        have := hids c
        by_cases hcd : c = d
        · subst hcd
          rw [if_pos rfl] at this
          have hne : op ≠ (a.w.clients c).lastReqId + 1 := fun he => hnewop ⟨rfl, he⟩
          omega
        · rw [if_neg hcd] at this
          omega
      rw [← h.held c op h0 hle']
      refine ⟨fun ⟨p, hp⟩ => ?_, fun ⟨p, hp⟩ => ⟨p, hp.step hc hs (fun he => by cases he)⟩⟩
      rcases hback hp with hp' | ⟨-, hcd, hop⟩
      · exact ⟨p, hp'⟩
      · exact absurd ⟨hcd, hop⟩ hnewop
  · rw [hlife] at ho
    rcases h.outstanding c op ho with ⟨f, wr, hwr, he⟩ | ⟨p, hp⟩
    · exact .inl ⟨f, wr, by rw [hcq]; exact hwr, he⟩
    · refine .inr ⟨p, hp.keep hc hs (fun he => by cases he) (fun d g wr hwr => ?_) ?_ fun k hk hkp => ?_⟩
      · rw [hcq] at hwr
        exact hp.notQueued d g wr hwr
      · rw [hother p hp.owner]
        exact hp.pending
      · exact hp.owner (hkp ▸ hhand k hk ▸ hfree.1)
  · rw [hlife]
    exact h.begun c op

/-- The life of one operation goes on; those of the others do not change. -/
theorem life_of_ne {d o : Nat} {ph : Phase} (hs : Step cfg Good l a b)
    (hl : ∀ c op, l.phases cfg a c op = if d = c ∧ o = op then [ph] else []) :
    life cfg b.w.log d o = life cfg a.w.log d o ++ [ph] ∧
      ∀ c op, ¬ (d = c ∧ o = op) → life cfg b.w.log c op = life cfg a.w.log c op := by
  refine ⟨?_, fun c op hne => ?_⟩
  · rw [step_life hs, hl, if_pos ⟨rfl, rfl⟩]
  · rw [step_life hs, hl, if_neg hne, List.append_nil]

/-- What is the same after a step that takes no request. -/
theorem kept_of_step (h : Ledger cfg a) (hc : CoreInv cfg a) (hs : Step cfg Good l a b)
    (htake : ∀ fn d, l ≠ .take fn d) :
    (∀ c, (b.w.clients c).lastReqId = (a.w.clients c).lastReqId) ∧
    (∀ p c op, Holds cfg b.w p c op → Holds cfg a.w p c op) ∧
    (∀ p q c op, Holds cfg b.w p c op → Holds cfg b.w q c op → p = q) ∧
    ∀ p c op, Holds cfg b.w p c op → 0 < op ∧ op ≤ (b.w.clients c).lastReqId := by
  have hids : ∀ c, (b.w.clients c).lastReqId = (a.w.clients c).lastReqId := by
    intro c
    rw [step_lastReqId hs]
    cases l <;> first | exact absurd rfl (htake _ _) | rfl
  have hback : ∀ p c op, Holds cfg b.w p c op → Holds cfg a.w p c op := by
    intro p c op hp
    rcases hp.of_step hc hs with ⟨hp', -⟩ | ⟨fn, hl, -⟩
    · exact hp'
    · exact absurd hl (htake _ _)
  refine ⟨hids, hback, fun p q c op hp hq => h.distinct p q c op (hback p c op hp) (hback q c op hq),
    fun p c op hp => ?_⟩
  rw [hids]
  exact h.taken p c op (hback p c op hp)

/-- The life of the operation of `p` goes on: what is left to say is about `p` and
its operation. -/
theorem advance {d o : Nat} {ph : Phase} (h : Ledger cfg a) (hc : CoreInv cfg a) (hs : Step cfg Good l a b)
    (htake : ∀ fn d, l ≠ .take fn d) (hrel : ∀ q, l = .release q → q = p)
    (hl : ∀ c op, l.phases cfg a c op = if d = c ∧ o = op then [ph] else []) (hp : Holds cfg a.w p d o)
    (hother : ∀ q, q ≠ p → (b.w.mem q).status = (a.w.mem q).status)
    (hhand : ∀ k, b.cur = some k → k.ptr ≠ p ∧ a.cur = some k)
    (hcq : ∀ c g wr, wr.wrId ≠ p → (wr ∈ b.w.cq c g ↔ wr ∈ a.w.cq c g))
    (hbegun : life cfg b.w.log d o <+: wholeLife) (hfresh : (b.w.mem p).status ≠ .prepared)
    (hcomplete : (b.w.mem p).status = .complete → life cfg b.w.log d o = [.accepted, .polled])
    (hheld : Holds cfg b.w p d o ↔ life cfg b.w.log d o ≠ wholeLife)
    (hqueued : ∀ c g, ∀ wr ∈ b.w.cq c g, wr.wrId = p → life cfg b.w.log d o = [.accepted])
    (hout : life cfg b.w.log d o = [.accepted] → (∃ f, ∃ wr ∈ b.w.cq d f, wr.op = o) ∨ Unsignaled cfg b p d o) :
    Ledger cfg b := by
  obtain ⟨-, hrest⟩ := life_of_ne hs hl
  obtain ⟨hids, hback, hdistinct, htaken⟩ := h.kept_of_step hc hs htake
  obtain ⟨hp0, hple⟩ := h.taken p d o hp
  -- the operation is that of `p`, and of `p` alone
  have hkey : ∀ {q c op}, Holds cfg a.w q c op → (q = p ↔ d = c ∧ o = op) := by
    intro q c op hq
    constructor
    · rintro rfl
      exact ⟨Option.some.inj (hp.client.symm.trans hq.client), hp.id.symm.trans hq.id⟩
    · rintro ⟨rfl, rfl⟩
      exact h.distinct q p _ _ hq hp
  have hqueuedHolds : ∀ {c g wr}, wr ∈ a.w.cq c g → Holds cfg a.w wr.wrId c wr.op := by
    intro c g wr hwr
    obtain ⟨fl, pl, hcore⟩ := hc
    exact queued_holds hcore hwr
  refine ⟨fun _ ho => h.known_step hc hs ho, hdistinct, htaken, fun c op ho => ?_, fun q c op hq hst => ?_,
    fun c g wr hwr => ?_, fun q c op hq hst => ?_, fun c op h0 hle => ?_, fun c op ho => ?_, fun c op => ?_⟩
  · rw [hids] at ho
    rw [hrest c op ?_]
    · exact h.untaken c op ho
    · rintro ⟨rfl, rfl⟩
      omega
  · have hqp : q ≠ p := by
      rintro rfl
      rcases hst with hst | ⟨k, hk, hkp⟩
      · exact hfresh hst
      · exact (hhand k hk).1 hkp
    have hqa := hback q c op hq
    rw [hrest c op (mt (hkey hqa).mpr hqp)]
    refine h.unposted q c op hqa ?_
    rcases hst with hst | ⟨k, hk, hkp⟩
    · exact .inl ((hother q hqp).symm.trans hst)
    · exact .inr ⟨k, (hhand k hk).2, hkp⟩
  · by_cases hwp : wr.wrId = p
    · obtain ⟨fl, pl, hcore⟩ := Core.step hc hs
      obtain ⟨rfl, rfl⟩ := (hkey (hback _ c wr.op (queued_holds hcore hwr))).mp hwp
      exact hqueued _ g wr hwr hwp
    · have hwa := (hcq c g wr hwp).mp hwr
      rw [hrest c wr.op (mt (hkey (hqueuedHolds hwa)).mpr hwp)]
      exact h.queued c g wr hwa
  · have hqa := hback q c op hq
    by_cases hqp : q = p
    · obtain ⟨rfl, rfl⟩ := (hkey hqa).mp hqp
      subst hqp
      exact hcomplete hst
    · rw [hrest c op (mt (hkey hqa).mpr hqp)]
      exact h.complete q c op hqa ((hother q hqp).symm.trans hst)
  · by_cases hop : d = c ∧ o = op
    · obtain ⟨rfl, rfl⟩ := hop
      rw [← hheld]
      refine ⟨fun ⟨q, hq⟩ => ?_, fun hpb => ⟨p, hpb⟩⟩
      rw [← (hkey (hback q _ _ hq)).mpr ⟨rfl, rfl⟩]
      exact hq
    · rw [hids] at hle
      rw [hrest c op hop, ← h.held c op h0 hle]
      refine ⟨fun ⟨q, hq⟩ => ⟨q, hback q c op hq⟩, fun ⟨q, hq⟩ => ⟨q, hq.step hc hs fun he => ?_⟩⟩
      exact hop ((hkey hq).mp (hrel q he))
  · by_cases hop : d = c ∧ o = op
    · obtain ⟨rfl, rfl⟩ := hop
      exact (hout ho).imp_right fun hu => ⟨p, hu⟩
    · rw [hrest c op hop] at ho
      rcases h.outstanding c op ho with ⟨g, wr, hwr, rfl⟩ | ⟨q, hq⟩
      · have hwp := mt (hkey (hqueuedHolds hwr)).mp hop
        exact .inl ⟨g, wr, (hcq c g wr hwp).mpr hwr, rfl⟩
      · have hqp := mt (hkey hq.toHolds).mp hop
        refine .inr ⟨q, hq.keep hc hs (mt (hrel q) hqp) (fun c' g wr hwr hwq => ?_) ?_
          fun k hk => hq.notInHand k (hhand k hk).2⟩
        · exact hq.notQueued c' g wr ((hcq c' g wr (hwq ▸ hqp)).mp hwr) hwq
        · rw [hother q hqp]
          exact hq.pending
  · by_cases hop : d = c ∧ o = op
    · obtain ⟨rfl, rfl⟩ := hop
      exact hbegun
    · rw [hrest c op hop]
      exact h.begun c op

/-- The HCA accepts the work request of the request at `p`. -/
theorem post {d o : Nat} {f : Flow} (h : Ledger cfg a) (hc : CoreInv cfg a) (hs : Step cfg Good l a b)
    (htake : ∀ fn d, l ≠ .take fn d) (hrel : ∀ p, l ≠ .release p)
    (hl : ∀ c op, l.phases cfg a c op = if d = c ∧ o = op then [.accepted] else [])
    (hp : Holds cfg a.w p d o) (hnone : life cfg a.w.log d o = [])
    (hcq : ∀ c g, b.w.cq c g =
      if c = d ∧ g = f ∧ nowait (a.w.mem p).flags = false then a.w.cq d f ++ [⟨p, o⟩] else a.w.cq c g)
    (hidle : ∀ c g, ∀ wr ∈ a.w.cq c g, wr.wrId ≠ p)
    (hother : ∀ q, q ≠ p → (b.w.mem q).status = (a.w.mem q).status) (hpend : (b.w.mem p).status.isPending)
    (hhand : ∀ k, b.cur = some k → k.ptr ≠ p ∧ a.cur = some k) (hflags : (b.w.mem p).flags = (a.w.mem p).flags) :
    Ledger cfg b := by
  have hpb : Holds cfg b.w p d o := hp.step hc hs (hrel p)
  have hself : life cfg b.w.log d o = [.accepted] := by
    rw [(life_of_ne hs hl).1, hnone]
    rfl
  refine h.advance hc hs htake (fun q hq => absurd hq (hrel q)) hl hp hother hhand ?_ ?_ ?_ ?_ ?_
    (fun _ _ _ _ _ => hself) ?_
  · intro c g wr hwp
    rw [hcq]
    split
    · rename_i hdf
      obtain ⟨rfl, rfl, -⟩ := hdf
      rw [List.mem_append, List.mem_singleton, or_iff_left]
      rintro rfl
      exact hwp rfl
    · rfl
  · rw [hself]
    exact ⟨_, rfl⟩
  · intro hst
    rw [hst] at hpend
    exact hpend
  · intro hst
    rw [hst] at hpend
    exact hpend.elim
  · rw [hself]
    exact ⟨fun _ hw => (by cases hw), fun _ => hpb⟩
  · intro _
    cases hnow : nowait (a.w.mem p).flags with
    | false =>
      refine .inl ⟨f, ⟨p, o⟩, ?_, rfl⟩
      rw [hcq, if_pos ⟨rfl, rfl, hnow⟩]
      exact List.mem_append_right _ (List.mem_singleton.mpr rfl)
    | true =>
      refine .inr ⟨hpb, by rw [hflags]; exact hnow, hpend, fun k hk => (hhand k hk).1, fun c g wr hwr => ?_⟩
      rw [hcq, if_neg (by rw [hnow]; simp)] at hwr
      exact hidle c g wr hwr

/-- What is given to the HCA names its request. -/
theorem accept_wrOk {d : Nat} {f : Flow} (hc : CoreInv cfg a) (hs : Step cfg Good (.accept d f p) a b) :
    (a.w.mem p).WrOk p := by
  obtain ⟨fl, pl, hcore⟩ := hc
  cases hs with
  | accept =>
    rcases hcore.wr_ok p (hcore.cur_ok _ rfl).1 with ⟨_, hk⟩ | hw
    · cases hk
    · exact hw

/-- The request that is handed over is in a posted list. -/
theorem handOver_posted {d : Nat} {f : Flow} (hc : CoreInv cfg a) (hs : Step cfg Good (.handOver d f p) a b) :
    f = .tx ∧ Holds cfg a.w p d (a.w.mem p).id ∧ (a.w.mem p).WrOk p ∧ (a.w.mem p).status = .prepared ∧
      ∀ k, a.cur = some k → k.ptr ≠ p := by
  obtain ⟨fl, pl, hcore⟩ := hc
  cases hs with
  | @handOver w cur _ _ _ _ hhead _ hst =>
    obtain ⟨hf, l, hpl, -⟩ := hcore.handOver hhead
    have hmem : p ∈ pl d := by
      rw [hpl]
      exact List.mem_cons_self
    obtain ⟨ho, hat, -⟩ := hcore.posted_mem d p hmem
    have hhand : ∀ k, cur = some k → k.ptr ≠ p := by
      rintro k hk rfl
      exact (hcore.cur_ok k hk).2.2.1.2.1 d hmem
    refine ⟨hf, ⟨ho, hat.1, rfl⟩, ?_, hst, hhand⟩
    rcases hcore.wr_ok p ho with ⟨_, hk⟩ | hw
    · exact absurd rfl (hhand _ hk)
    · exact hw

/-- The request in the hands of the call is given to the HCA. -/
theorem accept {d : Nat} {f : Flow} (h : Ledger cfg a) (hc : CoreInv cfg a) (hs : Step cfg Good (.accept d f p) a b) :
    Ledger cfg b := by
  have hwr := accept_wrOk hc hs
  obtain ⟨fl, pl, hcore⟩ := hc
  have hs' := hs
  cases hs' with
  | @accept w st _ _ _ hst hat =>
    obtain ⟨ho, hstatus, ⟨hidle, -⟩, -⟩ := hcore.cur_ok _ rfl
    have hp : Holds cfg w p d (w.mem p).id := ⟨ho, hat.1, rfl⟩
    refine h.post ⟨fl, pl, hcore⟩ hs (fun _ _ he => by cases he) (fun _ he => by cases he) (fun _ _ => rfl) hp ?_
      (fun c g => World.accept_cq hwr d c f g) hidle (fun _ _ => rfl) ?_ (fun k hk => by cases hk) rfl
    · exact h.unposted p d _ hp (.inr ⟨_, rfl, rfl⟩)
    · show (w.mem p).status.isPending
      rw [hstatus]
      exact hst

/-- The progress loop gives the head of a posted list to the HCA. -/
theorem handOver {d : Nat} {f : Flow} (h : Ledger cfg a) (hc : CoreInv cfg a)
    (hs : Step cfg Good (.handOver d f p) a b) : Ledger cfg b := by
  obtain ⟨rfl, hp, hwr, hst, hhand⟩ := handOver_posted hc hs
  obtain ⟨fl, pl, hcore⟩ := hc
  have hs' := hs
  cases hs' with
  | @handOver w cur =>
    have hself : ∀ q, ∃ n v, ((w.accept d .tx p).handOver d .tx p).mem q =
        { w.mem q with status := if q = p then .pending else (w.mem q).status, next := n, prev := v } :=
      World.handOver_mem w d .tx p
    refine h.post (f := .tx) ⟨fl, pl, hcore⟩ hs (fun _ _ he => by cases he) (fun _ he => by cases he) (fun _ _ => rfl)
      hp ?_ ?_ ?_ ?_ ?_ (fun k hk => ⟨hhand k hk, hk⟩) ?_
    · exact h.unposted p d _ hp (.inl hst)
    · intro c g
      rw [step_cq hs]
      exact World.accept_cq hwr d c .tx g
    · rintro c g wr hwr' rfl
      have hpend := (hcore.cq_mem c g wr hwr').2.2.2
      dsimp only at hpend
      rw [hst] at hpend
      exact hpend
    · intro q hq
      obtain ⟨n, v, hm⟩ := hself q
      dsimp only
      rw [hm, if_neg hq]
    · obtain ⟨n, v, hm⟩ := hself p
      dsimp only
      rw [hm, if_pos rfl]
      trivial
    · obtain ⟨n, v, hm⟩ := hself p
      dsimp only
      rw [hm]

/-- The progress loop polls the completion of a request. -/
theorem reap {d k : Nat} {f : Flow} (h : Ledger cfg a) (hc : CoreInv cfg a) (hs : Step cfg Good (.reap d f k) a b) :
    Ledger cfg b := by
  obtain ⟨fl, pl, hcore⟩ := hc
  obtain ⟨fl', pl', hcore'⟩ := Core.step ⟨fl, pl, hcore⟩ hs
  have hs' := hs
  cases hs' with
  | @reap w cur _ _ _ wr ans hk hpend =>
    have hwr : wr ∈ w.cq d f := List.mem_of_getElem? hk
    have hp : Holds cfg w wr.wrId d wr.op := queued_holds hcore hwr
    have hst : ∀ q, ((w.complete cfg d f k wr).mem q).status =
        if q = wr.wrId then .complete else (w.mem q).status := by
      intro q
      rw [World.complete_mem cfg hpend]
      split <;> rfl
    have hl : ∀ c op, (Lbl.reap d f k).phases cfg ⟨w, cur⟩ c op = if d = c ∧ wr.op = op then [.polled] else [] := by
      intro c op
      simp only [Lbl.phases, hk, ← hp.id]
    have hself : life cfg (w.complete cfg d f k wr).log d wr.op = [.accepted, .polled] := by
      have := (life_of_ne hs hl).1
      rw [h.queued d f wr hwr] at this
      exact this
    have hgone : ∀ c g, ∀ x ∈ (w.complete cfg d f k wr).cq c g, x.wrId ≠ wr.wrId := by
      intro c g x hx hxp
      have hpend' := (hcore'.cq_mem c g x hx).2.2.2
      dsimp only at hpend'
      rw [hst, if_pos hxp] at hpend'
      exact hpend'
    have hpb : Holds cfg (w.complete cfg d f k wr) wr.wrId d wr.op :=
      hp.step ⟨fl, pl, hcore⟩ hs fun he => by cases he
    refine h.advance ⟨fl, pl, hcore⟩ hs (fun _ _ he => by cases he) (fun _ he => by cases he) hl hp ?_ ?_ ?_ ?_ ?_
      (fun _ => hself) ?_ ?_ ?_
    · intro q hq
      dsimp only
      rw [hst, if_neg hq]
    · rintro c hcur
      refine ⟨?_, hcur⟩
      rintro he
      exact (hcore.cur_ok c hcur).2.2.1.1 d f wr hwr he.symm
    · intro c g x hx
      dsimp only
      rw [World.complete_cq]
      split
      · rename_i hdf
        obtain ⟨rfl, rfl⟩ := hdf
        refine ⟨fun hm => (List.eraseIdx_sublist _ _).subset hm, fun hm => ?_⟩
        obtain ⟨i, hi, rfl⟩ := List.mem_iff_getElem.mp hm
        refine List.mem_eraseIdx_iff_getElem.mpr ⟨i, hi, ?_, rfl⟩
        rintro rfl
        rw [List.getElem?_eq_getElem hi] at hk
        exact hx (congrArg Wr.wrId (Option.some.inj hk))
      · rfl
    · dsimp only
      rw [hself]
      exact ⟨_, rfl⟩
    · dsimp only
      rw [hst, if_pos rfl]
      intro he
      cases he
    · dsimp only
      rw [hself]
      exact ⟨fun _ hw => (by cases hw), fun _ => hpb⟩
    · intro c g x hx hxp
      exact absurd hxp (hgone c g x hx)
    · dsimp only
      rw [hself]
      intro he
      cases he

/-- The request of a complete operation goes back to the pool. -/
theorem release {p : Ptr} (h : Ledger cfg a) (hc : CoreInv cfg a) (hs : Step cfg Good (.release p) a b) :
    Ledger cfg b := by
  obtain ⟨fl, pl, hcore⟩ := hc
  have hs' := hs
  cases hs' with
  | @release w _ hst =>
    have ho : (w.mem p).owner ≠ none := hcore.owner_of_status (by rw [hst]; intro he; cases he)
    obtain ⟨d, o, hp⟩ := h.known p ho
    have hl : ∀ c op, (Lbl.release p).phases cfg ⟨w, none⟩ c op = if d = c ∧ o = op then [.released] else [] := by
      intro c op
      simp only [Lbl.phases, hp.client, ← hp.id, Option.some.injEq]
    have hself : life cfg (w.release p).log d o = wholeLife := by
      have := (life_of_ne hs hl).1
      rw [h.complete p d o hp hst] at this
      exact this
    have hfree : ((w.release p).mem p).owner = none ∧ ((w.release p).mem p).status = .undef := by
      simp [World.release]
    have hne : ∀ c g, ∀ x ∈ w.cq c g, x.wrId ≠ p := by
      rintro c g x hx rfl
      have hpend := (hcore.cq_mem c g x hx).2.2.2
      dsimp only at hpend
      rw [hst] at hpend
      exact hpend
    refine h.advance ⟨fl, pl, hcore⟩ hs (fun _ _ he => by cases he) (fun _ he => by cases he; rfl) hl hp ?_
      (fun k hk => by cases hk) (fun _ _ _ _ => .rfl) ?_ ?_ ?_ ?_ ?_ ?_
    · intro q hq
      simp [World.release, hq]
    · dsimp only
      exact hself ▸ List.prefix_rfl
    · dsimp only
      rw [hfree.2]
      intro he
      cases he
    · dsimp only
      rw [hfree.2]
      intro he
      cases he
    · dsimp only
      rw [hself]
      exact ⟨fun hpb => absurd hfree.1 hpb.owner, fun hw => absurd rfl hw⟩
    · intro c g x hx hxp
      exact absurd hxp (hne c g x hx)
    · dsimp only
      rw [hself]
      intro he
      cases he

/-- One step of the machine. -/
theorem step (h : Ledger cfg a) (hc : CoreInv cfg a) (hs : Step cfg Good l a b) : Ledger cfg b := by
  cases l with
  | take fn c => exact h.take hc hs
  | accept c f p => exact h.accept hc hs
  | reap c f k => exact h.reap hc hs
  | handOver c f p => exact h.handOver hc hs
  | release p => exact h.release hc hs
  | _ => exact h.quiet hc hs trivial

theorem moves {K : Lbl → Mach → Prop} {a b : Mach} (h : Ledger cfg a) (hc : CoreInv cfg a)
    (hm : Moves (Move cfg Good K) a b) : Ledger cfg b := by
  refine (Moves.inv (I := fun x => CoreInv cfg x ∧ Ledger cfg x) ?_ hm ⟨hc, h⟩).2
  rintro x y ⟨hcx, hx⟩ ⟨l, -, hs⟩
  exact ⟨Core.step hcx hs, hx.step hcx hs⟩

end Ledger
end LibMp
