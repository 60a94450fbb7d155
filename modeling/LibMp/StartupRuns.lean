import LibMp.Startup

/- What holds of the ranks of a job while they are in `mp_init`, and where they
   end up.

   A queue pair in RTS was moved there by a rank that has left the first
   barrier, so that all ranks have entered it and have all their queue pairs in
   RTR or beyond (`senders_find_receivers`). A rank that returns `MP_SUCCESS` has
   left all collective calls, so that nothing has failed on any rank
   (`mp_init_all_or_nothing`). -/
namespace LibMp
namespace Startup
variable {su : Startup} {rest : Plan su.Rank Node StartStop} {s : Team su.Rank Node StartStop} {a b : su.Rank}
  {i j k : Nat}

/-! ## Queue pairs -/

/-- No queue pair has been moved to RTS. -/
def NoneSends (b : Boot) : Prop := ∀ i q, (b.clients i).qp = some q → q.state ≠ .rts

/-- The queue pair of client `j` has the number `own` and is set up to receive,
in RC mode from the one at `info`. -/
def Receives (l : Launch) (info : QpInfo) (own j : Nat) (b : Boot) : Prop :=
  ∃ st psn, (st = .rtr ∨ st = .rts) ∧
    (b.clients j).qp = some { Qp.toRtr l info { qpNum := own, state := .init } with state := st, sqPsn := psn }

theorem onBoot_within {P : Boot → Prop} {m : IM Unit} (h : Prog.Within (Kept P) m) :
    Prog.Within (Kept fun x : Node => P x.boot) (onBoot m) := by
  intro x hx
  rw [(onBoot_run m x).1]
  exact h x.boot hx

theorem turnsFor_within {P : Boot → Prop} {body : Nat → Nat → IM Unit}
    (h : ∀ i peer, Prog.Within (Kept P) (body i peer)) (peers : List Nat) (i : Nat) :
    ∀ t ∈ turnsFor body peers i, Prog.Within (Kept fun x : Node => P x.boot) t := by
  induction peers generalizing i with
  | nil => exact fun t ht => by cases ht
  | cons peer rest ih =>
    intro t ht
    rcases List.mem_cons.mp ht with rfl | ht
    · exact onBoot_within (h i peer)
    · exact ih (i + 1) t ht

/-- A registration leaves the rank as it is. -/
theorem orElse_within {P : Node → Prop} (r : Registered) (e : StartStop) : Prog.Within (Kept P) (r.orElse e) := by
  intro x hx
  rw [(orElse_run r e x).2]
  exact hx

theorem setConn_within {P : Boot → Prop} {i : Nat} {g : Conn → Conn}
    (h : ∀ b, P b → P { b with clients := Function.update b.clients i (g (b.clients i)) }) :
    Prog.Within (Kept P) (setConn i g) := Prog.Within.modify h

/-- One client changes. -/
theorem NoneSends.update {b : Boot} {c : Conn} (h : NoneSends b) (hc : ∀ q, c.qp = some q → q.state ≠ .rts) (i : Nat) :
    NoneSends { b with clients := Function.update b.clients i c } := by
  intro i' q hq
  by_cases hi : i' = i
  · subst hi
    simp only [Function.update_self] at hq
    exact hc q hq
  · simp only [Function.update_of_ne hi] at hq
    exact h i' q hq

theorem createClient_noneSends (l : Launch) (i peer : Nat) : Prog.Within (Kept NoneSends) (createClient l i peer) := by
  unfold createClient
  refine Prog.Within.bind (Prog.Within.modify fun b hb => hb) fun _ => ?_
  refine Prog.Within.bind (setConn_within fun b hb =>
    hb.update (c := { b.clients i with mpiRank := peer }) (hb i) i) fun _ => ?_
  cases l.createQp i with
  | none => exact Prog.Within.stop _
  | some qpNum =>
    refine Prog.Within.bind (setConn_within fun b hb => hb.update (fun q hq => ?_) i) fun _ => ?_
    · cases hq
      simp
    refine Prog.Within.bind (Prog.Within.require _ _) fun _ => ?_
    refine Prog.Within.bind (setConn_within fun b hb => hb.update (fun q hq => ?_) i) fun _ => ?_
    · obtain ⟨q₀, -, rfl⟩ := Option.map_eq_some_iff.mp hq
      simp
    exact Prog.Within.modify fun b hb => hb

theorem readyToReceive_noneSends (l : Launch) (i peer : Nat) :
    Prog.Within (Kept NoneSends) (readyToReceive l i peer) := by
  unfold readyToReceive
  refine Prog.Within.bind Prog.Within.get fun b₀ => Prog.Within.bind (Prog.Within.require _ _) fun _ => ?_
  refine setConn_within fun b hb => hb.update (fun q hq => ?_) i
  obtain ⟨q₀, -, rfl⟩ := Option.map_eq_some_iff.mp hq
  unfold Qp.toRtr
  split <;> simp

theorem readyToSend_receives (l : Launch) (i peer : Nat) {l' : Launch} {info : QpInfo} {own j : Nat} :
    Prog.Within (Kept (Receives l' info own j)) (readyToSend l i peer) := by
  have hset : ∀ (b : Boot) (c : Conn), Receives l' info own j b →
      (c.qp = (b.clients i).qp ∨ c.qp = (b.clients i).qp.map fun q => { q with state := .rts, sqPsn := some 0 }) →
      Receives l' info own j { b with clients := Function.update b.clients i c } := by
    intro b c hb hc
    by_cases hji : j = i
    · subst hji
      obtain ⟨st, psn, hst, hq⟩ := hb
      rcases hc with hc | hc
      · exact ⟨st, psn, hst, by simp only [Function.update_self, hc, hq]⟩
      · exact ⟨.rts, some 0, .inr rfl, by simp only [Function.update_self, hc, hq, Option.map_some]⟩
    · obtain ⟨st, psn, hst, hq⟩ := hb
      exact ⟨st, psn, hst, by simp only [Function.update_of_ne hji, hq]⟩
  unfold readyToSend
  refine Prog.Within.bind Prog.Within.get fun b₀ => Prog.Within.bind (Prog.Within.require _ _) fun _ => ?_
  refine Prog.Within.bind (setConn_within fun b hb => hset b _ hb (.inr rfl)) fun _ => Prog.Within.ite ?_ ?_
  · exact Prog.Within.bind (Prog.Within.require _ _) fun _ => setConn_within fun b hb => hset b _ hb (.inl rfl)
  · exact Prog.Within.pure ()

/-- No rank has moved a queue pair to RTS before it has left the first barrier. -/
theorem noneSends (h : Team.Synced (su.mpInitThen rest) su.before s) (hk : (s.procs a).stage < 2) :
    NoneSends (s.procs a).loc.boot := by
  have hstart : NoneSends (su.before a).boot := by
    intro i q hq
    rw [show (su.before a).boot = Boot.init (su.launch a) from su.blank_boot a] at hq
    cases hq
  have hturns : ∀ t ∈ su.createStage.turns a, Prog.Within (Kept fun x : Node => NoneSends x.boot) t := by
    intro t ht
    rcases List.mem_cons.mp ht with rfl | ht
    · exact onBoot_within (Prog.Within.require _ _)
    · exact turnsFor_within (createClient_noneSends _) _ _ t ht
  rcases Nat.lt_or_eq_of_le (Nat.lt_succ_iff.mp hk) with h0 | h1
  · exact h.within (Nat.lt_one_iff.mp h0) hturns hstart
  · refine h.within h1 (turnsFor_within (readyToReceive_noneSends _) _ _) ?_
    intro i q hq
    rw [entry_receive_clients] at hq
    exact Prog.within_runAll hturns _ hstart i q hq

/-- What the second loop leaves, on any rank. -/
theorem receives (h0 : ∀ c, (su.mpInitThen rest).Comes su.before 0 c)
    (h1 : ∀ c, (su.mpInitThen rest).Comes su.before 1 c) (hi : (su.launch a).peers[i]? = some ↑b) :
    ∃ j q q', (su.launch b).peers[j]? = some ↑a ∧ (su.launch a).createQp i = some q ∧
      (su.launch b).createQp j = some q' ∧
      Receives (su.launch a) ⟨(su.launch b).lid, q', 0⟩ q i ((su.mpInitThen rest).entry su.before 2 a).boot := by
  obtain ⟨j, hj⟩ := List.mem_iff_getElem?.mp ((su.job.symm a a.2 b b.2).mp (List.mem_of_getElem? hi))
  obtain ⟨q, hq, hca, -⟩ := (createClients_ok (su.job.nodup a a.2) (created h0 a)).2.1 i b hi
  obtain ⟨q', hq', -, hslot⟩ := (createClients_ok (su.job.nodup b b.2) (created h0 b)).2.1 j a hj
  have hrtr : (su.mpInitThen rest).outcome su.before 1 a =
      (.ok (), (su.mpInitThen rest).entry su.before 2 a) := Prod.ext (h1 a) rfl
  rw [outcome_receive] at hrtr
  obtain ⟨-, -, hcl, -⟩ := forPeers_clients (fun _ _ _ _ => readyToReceive_ok) (onBoot_eq_ok hrtr)
  have hc := hcl i b hi
  rw [Nat.zero_add] at hq hq' hca hc
  refine ⟨j, q, q', hj, hq, hq', .rtr, none, .inl rfl, ?_⟩
  rw [hc, entry_receive_slot, hslot, entry_receive_clients, hca]
  unfold Conn.toRtr Conn.created Qp.toRtr
  split <;> rfl

/-- Nor does this change on a rank that has entered the first barrier. -/
theorem entered_receives (h : Team.Synced su.mpInitPlan su.before s) (hall : ∀ b, (s.procs b).Entered 1)
    (hi : (su.launch a).peers[i]? = some ↑b) : ∃ j q q', (su.launch b).peers[j]? = some ↑a ∧
      (su.launch a).createQp i = some q ∧ (su.launch b).createQp j = some q' ∧
      Receives (su.launch a) ⟨(su.launch b).lid, q', 0⟩ q i (s.procs a).loc.boot := by
  have hcomes : ∀ k ≤ 1, ∀ c, su.mpInitPlan.Comes su.before k c := by
    intro k hk c
    have hentered : (s.procs c).Entered k := by
      rcases hall c with hlt | ⟨heq, hw⟩
      · exact .inl (by omega)
      · rcases Nat.lt_or_eq_of_le hk with hk | rfl
        · exact .inl (by omega)
        · exact .inr ⟨heq, hw⟩
    unfold Plan.Comes
    rw [h.brought k c hentered]
  obtain ⟨j, q, q', hj, hq, hq', hrec⟩ := @receives su .nothing a b i (hcomes 0 (by omega)) (hcomes 1 (by omega)) hi
  refine ⟨j, q, q', hj, hq, hq', ?_⟩
  have hsend : ∀ t ∈ su.sendStage.turns a, Prog.Within
      (Kept fun x : Node => Receives (su.launch a) ⟨(su.launch b).lid, q', 0⟩ q i x.boot) t := by
    intro t ht
    rcases List.mem_append.mp ht with ht | ht
    · exact turnsFor_within (fun i peer => readyToSend_receives _ i peer) _ _ t ht
    · unfold registerPadding at ht
      split at ht
      · rw [List.mem_singleton.mp ht]
        exact orElse_within _ _
      · cases ht
  have hlen : (s.procs a).stage ≤ 3 := h.stage_le_length a
  rcases hall a with hlt | ⟨heq, hw⟩
  · rcases Nat.lt_or_eq_of_le hlen with hlt3 | heq
    · exact h.within (show (s.procs a).stage = 2 by omega) hsend hrec
    · rw [(h.through rfl heq).2]
      exact Prog.within_runAll hsend _ hrec
  · have ho := (h.waiting hw).2
    rw [← heq] at ho
    have hloc : (s.procs a).loc = su.mpInitPlan.entry su.before 2 a := by
      change _ = (su.mpInitPlan.outcome su.before 1 a).2
      rw [ho]
    rw [hloc]
    exact hrec

theorem Receives.address {l : Launch} {info : QpInfo} {own j : Nat} {x : Boot} (h : Receives l info own j x) :
    ∃ q, (x.clients j).qp = some q ∧ (q.state = .rtr ∨ q.state = .rts) ∧ q.qpNum = own ∧
      (l.enableUd = false → q.dlid = some info.lid ∧ q.destQpNum = some info.qpn) := by
  obtain ⟨st, psn, hst, hq⟩ := h
  refine ⟨_, hq, hst, ?_, fun hrc => ?_⟩
  · unfold Qp.toRtr
    split <;> rfl
  · simp [Qp.toRtr, hrc]

/-- In every state that the ranks of a job can be in during `mp_init`, however
their steps are interleaved and whoever has failed: if a queue pair has been
moved to RTS, then the queue pair that its peer has made for this rank is in RTR
or RTS, and in RC mode each of the two is connected to the other. -/
theorem senders_find_receivers (h : Moves (Team.Step su.mpInitPlan) (Team.start su.before) s)
    (hi : (su.launch a).peers[i]? = some ↑b) {q : Qp} (hq : ((s.procs a).loc.boot.clients i).qp = some q)
    (hrts : q.state = .rts) : ∃ j q', (su.launch b).peers[j]? = some ↑a ∧
      ((s.procs b).loc.boot.clients j).qp = some q' ∧ (q'.state = .rtr ∨ q'.state = .rts) ∧
      ((su.launch a).enableUd = false → q.dlid = some (su.launch b).lid ∧ q.destQpNum = some q'.qpNum) ∧
      ((su.launch b).enableUd = false → q'.dlid = some (su.launch a).lid ∧ q'.destQpNum = some q.qpNum) := by
  have hs := Team.synced_moves h
  have hleft : 1 < (s.procs a).stage := by
    by_contra hlt
    exact @noneSends su .nothing s a hs (by omega) i q hq hrts
  have hall := hs.entered a 1 hleft
  obtain ⟨j, n, n', hj, hn, hn', hrec⟩ := entered_receives hs hall hi
  obtain ⟨i', m, m', hi', hm, hm', hrec'⟩ := entered_receives hs hall hj
  obtain rfl : i' = i := by
    have h₁ := clientIndexFrom_of_get (su.job.nodup a a.2) hi (i := 0)
    have h₂ := clientIndexFrom_of_get (su.job.nodup a a.2) hi' (i := 0)
    rw [h₁] at h₂
    have := Option.some.inj h₂
    omega
  rw [hn] at hm'
  rw [hn'] at hm
  cases hm'
  cases hm
  obtain ⟨q₁, hq₁, -, hnum, hrc⟩ := hrec.address
  rw [hq] at hq₁
  cases hq₁
  obtain ⟨q', hq', hst, hnum', hrc'⟩ := hrec'.address
  refine ⟨j, q', hj, hq', hst, fun hud => ?_, fun hud => ?_⟩
  · rw [hnum']
    exact hrc hud
  · rw [hnum]
    exact hrc' hud

/-! ## The end -/

/-- What a rank can do in `mp_init` at most. -/
theorem mpInit_turns_le (su : Startup) (a : su.Rank) :
    Team.stepsFrom su.mpInitPlan a 0 ≤ 3 * (su.launch a).peers.length + 8 := by
  have hlen : ∀ (body : Nat → Nat → IM Unit) (peers : List Nat) (i : Nat),
      (turnsFor body peers i).length = peers.length := by
    intro body peers
    induction peers with
    | nil => exact fun i => rfl
    | cons peer rest ih => exact fun i => by rw [turnsFor, List.length_cons, List.length_cons, ih]
  have hpad : (su.registerPadding a).length ≤ 1 := by
    unfold registerPadding
    split <;> simp
  simp only [Team.stepsFrom, mpInitPlan, mpInitThen, Plan.after, Plan.nothing, List.append_nil, createStage,
    receiveStage, sendStage, List.drop_zero, List.foldr_cons, List.foldr_nil, List.length_cons, List.length_nil, List.length_append, hlen]
  omega

/-- A rank that returns `MP_SUCCESS` has seen all others go through. -/
theorem allWell_of_through (h : Team.Synced su.mpInitPlan su.before s) (ha : (s.procs a).stage = 3) : su.AllWell :=
  (su.allWell_iff .nothing).mpr fun k hk b => h.comes (a := a) (by omega) b

/-- If nothing fails, the ranks end up as if they had gone side by side. -/
theorem all_through (h : Team.Synced su.mpInitPlan su.before s) (hwell : su.AllWell)
    (hover : Team.Over su.mpInitPlan s) :
    (∀ a, (s.procs a).stage = 3) ∧ su.job.Starts (su.boots fun a => (s.procs a).loc) := by
  have hcomes := (su.allWell_iff .nothing).mp hwell
  have hall : ∀ a, (s.procs a).stage = 3 := (h.through_iff hover).mpr hcomes
  have hloc : (fun a => (s.procs a).loc) = su.mpInitPlan.entry su.before 3 := funext fun a => (h.through rfl (hall a)).2
  refine ⟨hall, ?_⟩
  rw [hloc]
  exact starts hcomes

/-- In every run of `mp_init` on all ranks, with any interleaving: there are only
so many steps, and from every state the run can be brought to its end. If the calls
outside the library whose results are looked at come out well (`AllWell`), all ranks
return `MP_SUCCESS` at the end, with the connections they would have made side by
side. Otherwise no rank returns `MP_SUCCESS`, at no time, and at the end each rank has
failed itself, spins in `mp_register`, or waits for good in one and the same
collective call. -/
theorem mp_init_all_or_nothing (h : Team.Run su.mpInitPlan su.before k s) :
    k ≤ ∑ a : su.Rank, (3 * (su.launch a).peers.length + 8) ∧
    (∃ s', Moves (Team.Step su.mpInitPlan) s s' ∧ Team.Over su.mpInitPlan s') ∧
    (su.AllWell → Team.Over su.mpInitPlan s →
      (∀ a, (s.procs a).stage = 3) ∧ su.job.Starts (su.boots fun a => (s.procs a).loc)) ∧
    (¬ su.AllWell → (∀ a, (s.procs a).stage ≠ 3) ∧
      (Team.Over su.mpInitPlan s → ∃ k < 3, s.HeldUp k)) := by
  have hs := h.synced
  refine ⟨?_, hs.ends, fun hwell hover => all_through hs hwell hover, fun hnot => ⟨fun a ha => ?_, fun hover => ?_⟩⟩
  · calc k
      _ ≤ k + Team.stepsLeft su.mpInitPlan s := Nat.le_add_right ..
      _ ≤ ∑ a, Team.stepsFrom su.mpInitPlan a 0 := h.length_le
      _ ≤ ∑ a : su.Rank, (3 * (su.launch a).peers.length + 8) := Finset.sum_le_sum fun a _ => su.mpInit_turns_le a
  · exact hnot (allWell_of_through hs ha)
  · rcases hs.stuck hover with hall | hup
    · have hcomes := (hs.through_iff hover).mp hall
      exact absurd ((su.allWell_iff .nothing).mpr hcomes) hnot
    · exact hup

/-- The three ranks of `threeRanks`, and nothing fails. -/
def threeStart : Startup where
  job := threeRanks
  opens := fun _ => true
  padding := fun _ => .done
  blank := fun a => ⟨Boot.init (threeRanks.launch a), .init, fun _ => {}, ⟨fun _ => 0, fun _ => 0, fun _ => 0⟩⟩
  blank_boot := fun _ => rfl

theorem threeStart_allWell : threeStart.AllWell where
  opens _ := rfl
  created := by decide
  received := by decide
  sent := by decide
  padding _ _ := rfl

/-- They all get through, and there is no longer run than this. -/
theorem mp_init_all_or_nothing_of_three : ∃ k s, Team.Run threeStart.mpInitPlan threeStart.before k s ∧ k ≤ 33 ∧
    ∀ a, (s.procs a).stage = 3 := by
  obtain ⟨-, ⟨s, hm, hover⟩, -, -⟩ := @mp_init_all_or_nothing threeStart _ _ .start
  obtain ⟨k, hk⟩ := Team.Run.start.moves hm
  obtain ⟨hle, -, hwell, -⟩ := mp_init_all_or_nothing hk
  exact ⟨k, s, hk, hle, (hwell threeStart_allWell hover).1⟩

/-- Rank 0 sends to rank 2 from its client 0, and rank 2 receives. -/
theorem senders_find_receivers_of_three : ∃ s : Team threeStart.Rank Node StartStop, ∃ j q',
    (threeRanks.launch 2).peers[j]? = some 0 ∧ ((s.procs (2 : Fin 3)).loc.boot.clients j).qp = some q' ∧
      (q'.state = .rtr ∨ q'.state = .rts) := by
  obtain ⟨s, hm, hover⟩ := (@Team.synced_start _ _ _ threeStart.mpInitPlan threeStart.before).ends
  obtain ⟨-, hstarts⟩ := all_through (Team.synced_moves hm) threeStart_allWell hover
  obtain ⟨j, q, q', -, -, -, hc⟩ := hstarts.client (a := 0) (b := 2) (i := 0) (by decide) rfl
  have hself : ((s.procs (0 : Fin 3)).loc.boot.clients 0).qp = _ := congrArg Conn.qp hc
  obtain ⟨j', q'', hj, hq, hst, -⟩ := @senders_find_receivers threeStart s (0 : Fin 3) (2 : Fin 3) 0
    hm rfl _ hself rfl
  exact ⟨s, j', q'', hj, hq, hst⟩

end Startup
end LibMp
