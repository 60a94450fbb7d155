import LibMp.AsyncView

/- The runs of the job of `async_exchange` refine the exchange of messages with
   credits that `sync_exchange` refines.

   What a stream runs is what stands at its place: an operation that it passes is
   a step of the exchange, but for the waits for completions, of which only the
   last one of a round is one. -/
namespace LibMp
namespace Asyncpong
variable {pp : Pingpong} {s s' : AsyncState} {k : AsyncRank} {c : Comm} {r p q i j : Nat} {op : AsyncOp}
  {rest : List AsyncOp} {a b : StreamAct} {l : List StreamAct} {x : Option Ptr} {tape : List Ans}

/-! ## A stream runs an operation -/

/-- What an operation of the stream of rank `r` leaves: the puts it holds, the
puts in flight and the messages that have left. -/
inductive Acted (pp : Pingpong) (s : AsyncState) (r : Nat) :
    StreamAct → (Nat → List Put) → List Put → (Nat → Nat → Nat) → Prop where
  | put {p : Nat} {q : Put} {held : List Put} : (s.rank r).held p = q :: held →
      Acted pp s r (.put p) (Function.update (s.rank r).held p held) (s.flying ++ [q]) s.sent
  | ready {p : Nat} : (place pp r (s.rank r)).round < arrivedNo s.log r p →
      Acted pp s r (.ready p) (s.rank r).held s.flying s.sent
  | send {p : Nat} : Acted pp s r (.send p) (s.rank r).held s.flying (setAt s.sent r p (s.sent r p + 1))
  | recvDone {p : Nat} : (place pp r (s.rank r)).round < s.arrived p r →
      Acted pp s r (.recvDone p) (s.rank r).held s.flying s.sent
  | sendDone {p : Nat} : (place pp r (s.rank r)).round < s.arrived r p →
      Acted pp s r (.sendDone p) (s.rank r).held s.flying s.sent

/-- The state then. -/
def ticked (s : AsyncState) (r : Nat) (held : Nat → List Put) (flying : List Put) (sent : Nat → Nat → Nat) :
    AsyncState := { s with
  rank := Function.update s.rank r { s.rank r with held := held, ran := (s.rank r).ran + 1 }
  flying := flying
  sent := sent }

theorem acted_of_act (h : act pp s r a = some s') :
    ∃ held flying sent, Acted pp s r a held flying sent ∧ tick s' r = ticked s r held flying sent := by
  cases a with
  | put p =>
    dsimp only [act, ringPut] at h
    split at h
    · cases h
    · rename_i q held hheld
      cases h
      refine ⟨_, _, _, .put hheld, ?_⟩
      simp [tick, ticked]
  | send p =>
    cases h
    exact ⟨_, _, _, .send, rfl⟩
  | ready p =>
    dsimp only [act] at h
    split at h
    · cases h
      exact ⟨_, _, _, .ready ‹_›, rfl⟩
    · cases h
  | recvDone p =>
    dsimp only [act] at h
    split at h
    · cases h
      exact ⟨_, _, _, .recvDone ‹_›, rfl⟩
    · cases h
  | sendDone p =>
    dsimp only [act] at h
    split at h
    · cases h
      exact ⟨_, _, _, .sendDone ‹_›, rfl⟩
    · cases h

/-- What an operation of the stream is in the exchange. -/
def moved (e : Exchange Nat) (r : Nat) (l : List StreamAct) : StreamAct → Exchange Nat
  | .put p => { e with
      told := setAt e.told p r (e.told p r + 1), notices := e.notices ++ [⟨p, r, e.told p r + 1⟩] }
  | .ready p => { e with passed := setAt e.passed r p (e.passed r p + 1) }
  | .send p => { e with sent := setAt e.sent r p (e.sent r p + 1) }
  | .recvDone _ => e
  | .sendDone _ => if l = [] then { e with round := fun x => if x = r then e.round x + 1 else e.round x } else e

section Moved
variable {e : Exchange Nat}

theorem moved_rest : (moved e r l a).posted = e.posted ∧ (moved e r l a).heard = e.heard ∧
    (moved e r l a).arrived = e.arrived := by
  cases a with
  | sendDone p =>
    rw [moved]
    split <;> exact ⟨rfl, rfl, rfl⟩
  | _ => exact ⟨rfl, rfl, rfl⟩

theorem moved_told (x y : Nat) :
    (moved e r l a).told x y = e.told x y + if y = r ∧ StreamAct.put x = a then 1 else 0 := by
  cases a with
  | put p =>
    show setAt e.told p r _ x y = _
    rw [Pingpong.setAt_add]
    simp [and_comm]
  | sendDone p =>
    rw [moved]
    split <;> simp
  | _ => simp [moved]

theorem moved_passed (x y : Nat) :
    (moved e r l a).passed x y = e.passed x y + if x = r ∧ StreamAct.ready y = a then 1 else 0 := by
  cases a with
  | ready p =>
    show setAt e.passed r p _ x y = _
    rw [Pingpong.setAt_add]
    simp
  | sendDone p =>
    rw [moved]
    split <;> simp
  | _ => simp [moved]

theorem moved_round (hl : (∀ p, a ≠ .sendDone p) → l ≠ []) (q : Nat) :
    (moved e r l a).round q = e.round q + if q = r ∧ l = [] then 1 else 0 := by
  cases a with
  | sendDone p =>
    rw [moved]
    by_cases hnil : l = []
    · rw [if_pos hnil]
      by_cases hq : q = r <;> simp [hq, hnil]
    · rw [if_neg hnil, if_neg (fun hh => hnil hh.2)]
      rfl
  | _ =>
    rw [if_neg (fun hh => hl (by simp) hh.2)]
    rfl

end Moved

/-- The rest of a rank does not matter to its calls. -/
theorem Lane.same (h : Lane pp r k) {t : ReadyTables} (ht : t.readyValues = k.comm.ready.readyValues)
    (held : Nat → List Put) {n : Nat} (hn : n ≤ k.ops.length) :
    Lane pp r { k with comm := { k.comm with ready := t }, held := held, ran := n } := by
  have hgrows : Grows pp r k { k with comm := { k.comm with ready := t }, held := held, ran := n } :=
    ⟨List.Subset.refl _, fun _ _ => ⟨rfl, rfl⟩, fun _ => List.prefix_rfl, fun _ => List.prefix_rfl,
      fun _ => Nat.le_refl _⟩
  have hkeep : ∀ {type : ReqType} {queue : Nat → List Nat} {l : List Nat} {qs : List Ptr} {j : Nat},
      StoredFor pp r k.comm j type queue l qs → StoredFor pp r { k.comm with ready := t } j type queue l qs :=
    fun hs => hs.keep (List.Subset.refl _) (fun _ _ _ => ⟨rfl, rfl, rfl, rfl, rfl, rfl⟩) fun _ => List.prefix_rfl
  refine ⟨h.pos, h.rounds, h.ended, h.rank.same rfl rfl, h.room,
    ⟨h.inUse.distinct, h.inUse.fresh, h.inUse.owner⟩, h.fed,
    fun m o ho => ?_, hn, fun p => ?_, h.recvq, h.sendq, h.ids, hkeep h.recvs, hkeep h.sends⟩
  · obtain ⟨a, l, ha, hm⟩ := h.ops m o ho
    exact ⟨a, l, ha, hm.grows hgrows⟩
  · show t.readyValues p = _
    rw [ht]
    exact h.expected p

section Ticked
variable {held : Nat → List Put} {flying : List Put} {sent : Nat → Nat → Nat}

theorem rank_ticked (q : Nat) : (ticked s r held flying sent).rank q =
    if q = r then { s.rank r with held := held, ran := (s.rank r).ran + 1 } else s.rank q :=
  Function.update_apply ..

/-- The CPU makes no call meanwhile. -/
theorem called_ticked (q : Nat) (o : AsyncOp) :
    called pp q ((ticked s r held flying sent).rank q) o = called pp q (s.rank q) o := by
  rw [rank_ticked]
  split
  · rename_i hq
    rw [hq]
    rfl
  · rfl

theorem comm_ticked (q : Nat) : ((ticked s r held flying sent).rank q).comm = (s.rank q).comm ∧
    ((ticked s r held flying sent).rank q).recvq = (s.rank q).recvq := by
  rw [rank_ticked]
  split
  · rename_i hq
    rw [hq]
    exact ⟨rfl, rfl⟩
  · exact ⟨rfl, rfl⟩

section Next
variable (htodo : (place pp r (s.rank r)).todo = a :: l)
include htodo

theorem acts_ne_nil : acts pp r ≠ [] := by
  intro hnil
  rw [place, Place.nth, hnil, List.drop_nil] at htodo
  cases htodo

theorem place_in : (place pp r (s.rank r)).In (acts pp r) := Place.nth_in (acts_ne_nil htodo) _

theorem place_ticked (q : Nat) : place pp q ((ticked s r held flying sent).rank q) =
    if q = r then (place pp r (s.rank r)).next (acts pp r) else place pp q (s.rank q) := by
  rw [rank_ticked]
  split
  · rename_i hq
    rw [hq]
    exact (Place.next_nth (acts_ne_nil htodo) _).symm
  · rfl

theorem ran_ticked (q : Nat) (b : StreamAct) : ran pp q ((ticked s r held flying sent).rank q) b =
    ran pp q (s.rank q) b + if q = r ∧ b = a then 1 else 0 := by
  rw [ran, place_ticked htodo]
  by_cases hq : q = r
  · subst hq
    rw [if_pos rfl, (place_in htodo).countIn_next (acts_nodup pp q) htodo]
    simp only [true_and]
    rfl
  · rw [if_neg hq, if_neg (fun hh => hq hh.1)]
    rfl

/-- What comes next was done once in each round that is over. -/
theorem ran_head : ran pp r (s.rank r) a = (place pp r (s.rank r)).round :=
  (place_in htodo).countIn_head (acts_nodup pp r) htodo

theorem ran_before (hb : [b, a].Sublist (acts pp r)) : ran pp r (s.rank r) b = (place pp r (s.rank r)).round + 1 :=
  (place_in htodo).countIn_before (acts_nodup pp r) htodo hb

/-- A round ends with the wait for a send. -/
theorem last_act (ha : ∀ p, a ≠ .sendDone p) : l ≠ [] := by
  have hin := place_in htodo
  obtain ⟨p, hp, hact⟩ := mem_streamActs.mp (hin.head_mem htodo)
  refine hin.rest_ne_nil (acts_nodup pp r) htodo (y := .sendDone p) ?_
  rcases hact with rfl | rfl | rfl | rfl | rfl
  · exact (streamPosts_before_done (mem_streamPosts.mpr ⟨p, hp, by tauto⟩) hp).2
  · exact (streamPosts_before_done (mem_streamPosts.mpr ⟨p, hp, by tauto⟩) hp).2
  · exact (streamPosts_before_done (mem_streamPosts.mpr ⟨p, hp, by tauto⟩) hp).2
  · exact recvDone_before_sendDone hp hp
  · exact absurd rfl (ha p)

theorem round_ticked (q : Nat) : (view pp (ticked s r held flying sent)).round q =
    (view pp s).round q + if q = r ∧ l = [] then 1 else 0 := by
  show (place pp q _).round = (place pp q (s.rank q)).round + _
  rw [place_ticked htodo]
  by_cases hq : q = r
  · subst hq
    rw [if_pos rfl]
    cases l with
    | nil => rw [Place.next_last htodo, if_pos ⟨rfl, rfl⟩]
    | cons b l =>
      rw [Place.next_inner htodo, if_neg (by simp)]
      rfl
  · rw [if_neg hq, if_neg (fun hh => hq hh.1)]
    rfl

omit htodo in
/-- The put that leaves is the next one. -/
theorem AsyncInv.held_head (h : AsyncInv pp s) (hr : pp.Member r) {v : Put} {vs : List Put}
    (hheld : (s.rank r).held p = v :: vs) : v = putNo pp r p (ran pp r (s.rank r) (.put p) + 1) ∧
      ran pp r (s.rank r) (.put p) < called pp r (s.rank r) (.sendReady p) ∧
      vs = (List.range' (ran pp r (s.rank r) (.put p) + 1 + 1) (called pp r (s.rank r) (.sendReady p) -
        (ran pp r (s.rank r) (.put p) + 1))).map (putNo pp r p) := by
  have hput := h.held r p hr
  rw [hheld] at hput
  cases hn : called pp r (s.rank r) (.sendReady p) - ran pp r (s.rank r) (.put p) with
  | zero =>
    rw [hn] at hput
    cases hput
  | succ n =>
    have hrest : called pp r (s.rank r) (.sendReady p) - (ran pp r (s.rank r) (.put p) + 1) = n := by omega
    rw [hn, List.range'_succ] at hput
    obtain ⟨hv, hvs⟩ := List.cons.inj hput
    rw [hrest]
    exact ⟨hv, by omega, hvs⟩

theorem AsyncInv.view_ticked (h : AsyncInv pp s) (hr : pp.Member r) (hacted : Acted pp s r a held flying sent) :
    view pp (ticked s r held flying sent) = moved (view pp s) r l a := by
  obtain ⟨hposted, hheard, harrived⟩ := moved_rest (e := view pp s) (r := r) (l := l) (a := a)
  apply Exchange.ext
  case posted =>
    rw [hposted]
    funext x y
    show (((Asyncpong.ticked s r held flying sent).rank y).recvq x).length = _
    rw [(comm_ticked y).2]
    rfl
  case told =>
    funext x y
    rw [moved_told]
    exact ran_ticked htodo y _
  case passed =>
    funext x y
    rw [moved_passed]
    exact ran_ticked htodo x _
  case round =>
    funext q
    rw [moved_round (last_act htodo)]
    exact round_ticked htodo q
  case heard =>
    rw [hheard]
    rfl
  case arrived =>
    rw [harrived]
    rfl
  case notices =>
    cases hacted with
    | @put p q _ hheld =>
      show (s.flying ++ [q]).map _ = _
      rw [List.map_append, (h.held_head hr hheld).1]
      rfl
    | sendDone =>
      rw [moved]
      split <;> rfl
    | _ => rfl
  case sent =>
    cases hacted with
    | sendDone =>
      rw [moved]
      split <;> rfl
    | _ => rfl

section Op
variable (h : AsyncInv pp s) (hr : pp.Member r) {o : StreamOp}
  (hm : Matches pp r (s.rank r) (place pp r (s.rank r)).round a o) (hacted : Acted pp s r a held flying sent)
include h hr hm hacted

theorem AsyncInv.exchange_act :
    Moves (Exchange.Step pp.Member) (view pp s) (view pp (Asyncpong.ticked s r held flying sent)) := by
  have hin := place_in htodo
  have hhead := ran_head htodo
  obtain ⟨p, hp, hact⟩ := mem_streamActs.mp (hin.head_mem htodo)
  rw [h.view_ticked htodo hr hacted]
  cases hacted with
  | @put p' q _ hheld =>
    obtain rfl : p' = p := by simpa using hact
    cases hm with
    | put _ _ _ hrecv htold =>
      rw [← (h.lane r hr).recvq] at hrecv
      refine .single (.tell ⟨hp.1, hr, hp.2⟩ ?_ hhead.le)
      show ran pp r (s.rank r) (.put p') < ((s.rank r).recvq p').length
      omega
  | @ready p' hguard =>
    obtain rfl : p' = p := by simpa using hact
    refine .single (.pass ⟨hr, hp.1, hp.2.symm⟩ ?_ hhead.le)
    show ran pp r (s.rank r) (.ready p') < arrivedNo s.log r p'
    omega
  | @send p' =>
    obtain rfl : p' = p := by simpa using hact
    have hpassed := ran_before htodo (ready_before_send hp)
    refine .single (.send ⟨hr, hp.1, hp.2.symm⟩ ?_)
    show s.sent r p' < ran pp r (s.rank r) (.ready p')
    rw [h.sent r p' hr]
    omega
  | recvDone => exact .refl
  | @sendDone p' hguard =>
    cases l with
    | cons b l => exact .refl
    | nil =>
      -- all other operations of the round were done before
      have hround : ∀ b ∈ acts pp r, b ≠ .sendDone p' →
          ran pp r (s.rank r) b = (place pp r (s.rank r)).round + 1 := by
        intro b hb hne
        exact (Place.countIn_of_mem hb).trans (hin.count_before_last htodo hb hne)
      refine .single (.finish hr fun b hb => ⟨?_, ?_⟩)
      · have hmem : StreamAct.recvDone b ∈ acts pp r := mem_streamActs.mpr ⟨b, ⟨hb.left, hb.ne⟩, by tauto⟩
        have hle := h.received r b hr
        rw [hround _ hmem (by simp)] at hle
        exact hle
      · have hmem : StreamAct.sendDone b ∈ acts pp r := mem_streamActs.mpr ⟨b, ⟨hb.left, hb.ne⟩, by tauto⟩
        have hsent : s.arrived r b ≤ s.sent r b := (h.order.chain r b hb.symm).arrived_le
        show (place pp r (s.rank r)).round < s.sent r b
        by_cases hbp : b = p'
        · rw [hbp] at hsent ⊢
          omega
        · have hle := h.delivered r b hr
          rw [hround _ hmem (by simpa using hbp)] at hle
          omega

theorem AsyncInv.ready_ticked : ReadyInv pp.job (Asyncpong.ticked s r held flying sent).net := by
  have hnet : (Asyncpong.ticked s r held flying sent).net = { s.net with flying := flying } := by
    have htables : (Asyncpong.ticked s r held flying sent).net.tables = s.net.tables := by
      funext q
      exact congrArg Comm.ready (comm_ticked q).1
    rw [AsyncState.net, Net.mk.injEq]
    exact ⟨htables, rfl, rfl, rfl⟩
  obtain ⟨p, hp, hact⟩ := mem_streamActs.mp ((place_in htodo).head_mem htodo)
  rw [hnet]
  refine ⟨h.ready.sent, h.ready.took, ?_, h.ready.table, h.ready.waits⟩
  cases hacted with
  | @put p' v vs hheld =>
    obtain rfl : p' = p := by simpa using hact
    obtain ⟨hv, hlt, -⟩ := h.held_head hr hheld
    intro v' hv'
    rcases List.mem_append.mp hv' with hv' | hv'
    · exact h.ready.flying v' hv'
    · rw [List.mem_singleton.mp hv', hv]
      refine ⟨hp.2.symm, rfl, ?_, rfl⟩
      show ran pp r (s.rank r) (.put p') + 1 ≤ sentCount s.log r p'
      rw [h.told r p' hr]
      exact hlt
  | _ => exact h.ready.flying

/-- A doorbell takes the first put that is held. -/
theorem AsyncInv.held_ticked (q p : Nat) (hq : pp.Member q) :
    ((Asyncpong.ticked s r held flying sent).rank q).held p =
      (List.range' (ran pp q (s.rank q) (.put p) + (if q = r ∧ StreamAct.put p = a then 1 else 0) + 1)
        (called pp q (s.rank q) (.sendReady p) -
          (ran pp q (s.rank q) (.put p) + if q = r ∧ StreamAct.put p = a then 1 else 0))).map (putNo pp q p) := by
  have hold := h.held q p hq
  rw [rank_ticked]
  by_cases hqr : q = r
  · subst hqr
    rw [if_pos rfl]
    cases hacted with
    | @put p' v vs hheld =>
      show Function.update (s.rank q).held p' vs p = _
      by_cases hp : p = p'
      · subst hp
        rw [Function.update_self, if_pos ⟨rfl, rfl⟩]
        exact (h.held_head hr hheld).2.2
      · rw [Function.update_of_ne hp, if_neg (by simpa using hp)]
        exact hold
    | _ =>
      rw [if_neg (by simp)]
      exact hold
  · rw [if_neg hqr, if_neg (fun hh => hqr hh.1)]
    exact hold

/-- A doorbell for a message lets it go. -/
theorem AsyncInv.sent_ticked (q p : Nat) (hq : pp.Member q) : sent q p =
    ran pp q (s.rank q) (.send p) + if q = r ∧ StreamAct.send p = a then 1 else 0 := by
  rw [← h.sent q p hq]
  cases hacted with
  | @send p' =>
    show setAt s.sent r p' _ q p = _
    by_cases hqp : q = r ∧ p = p'
    · obtain ⟨rfl, rfl⟩ := hqp
      rw [setAt_self, if_pos ⟨rfl, rfl⟩]
    · rw [setAt_of_ne _ _ hqp, if_neg (by simpa using hqp)]
      rfl
  | _ =>
    rw [if_neg (by simp)]
    rfl

/-- The stream rings for no put that was not issued, and passes no wait before its message has arrived. -/
theorem AsyncInv.bounds_ticked (q p : Nat) (hq : pp.Member q) :
    (ran pp q (s.rank q) (.put p) + (if q = r ∧ StreamAct.put p = a then 1 else 0) ≤
      called pp q (s.rank q) (.sendReady p)) ∧
    (ran pp q (s.rank q) (.recvDone p) + (if q = r ∧ StreamAct.recvDone p = a then 1 else 0) ≤ s.arrived p q) ∧
    ran pp q (s.rank q) (.sendDone p) + (if q = r ∧ StreamAct.sendDone p = a then 1 else 0) ≤ s.arrived q p := by
  have hhead := ran_head htodo
  refine ⟨?_, ?_, ?_⟩
  · by_cases hqa : q = r ∧ StreamAct.put p = a
    · obtain ⟨rfl, rfl⟩ := hqa
      rw [if_pos ⟨rfl, rfl⟩, hhead]
      cases hm with
      | put _ _ _ _ htold => exact htold
    · rw [if_neg hqa]
      exact h.rung q p hq
  · by_cases hqa : q = r ∧ StreamAct.recvDone p = a
    · obtain ⟨rfl, rfl⟩ := hqa
      rw [if_pos ⟨rfl, rfl⟩, hhead]
      cases hacted with
      | recvDone hguard => exact hguard
    · rw [if_neg hqa]
      exact h.received q p hq
  · by_cases hqa : q = r ∧ StreamAct.sendDone p = a
    · obtain ⟨rfl, rfl⟩ := hqa
      rw [if_pos ⟨rfl, rfl⟩, hhead]
      cases hacted with
      | sendDone hguard => exact hguard
    · rw [if_neg hqa]
      exact h.delivered q p hq

/-- An operation of a stream leaves the job in order. -/
theorem AsyncInv.ticked (hran : (s.rank r).ran < (s.rank r).ops.length) :
    AsyncInv pp (Asyncpong.ticked s r held flying sent) := by
  have hran' : ∀ q b, ran pp q ((Asyncpong.ticked s r held flying sent).rank q) b =
      ran pp q (s.rank q) b + if q = r ∧ b = a then 1 else 0 := fun q b => ran_ticked htodo q b
  constructor
  case lane =>
    intro q hq
    rw [rank_ticked]
    by_cases hqr : q = r
    · rw [if_pos hqr, hqr]
      exact (h.lane r hr).same rfl held hran
    · rw [if_neg hqr]
      exact h.lane q hq
  case ready => exact h.ready_ticked htodo hr hm hacted
  case told =>
    intro q p hq
    rw [called_ticked]
    exact h.told q p hq
  case rung =>
    intro q p hq
    rw [hran', called_ticked]
    exact (h.bounds_ticked htodo hr hm hacted q p hq).1
  case held =>
    intro q p hq
    rw [hran', called_ticked]
    exact h.held_ticked htodo hr hm hacted q p hq
  case sent =>
    intro q p hq
    rw [hran']
    exact h.sent_ticked htodo hr hm hacted q p hq
  case received =>
    intro q p hq
    rw [hran']
    exact (h.bounds_ticked htodo hr hm hacted q p hq).2.1
  case delivered =>
    intro q p hq
    rw [hran']
    exact (h.bounds_ticked htodo hr hm hacted q p hq).2.2
  case order => exact Exchange.orderly_moves (h.exchange_act htodo hr hm hacted) h.order

end Op

end Next

end Ticked

/-! ## A put or a message arrives -/

section Put
variable (pp s i) (v : Put)

/-- A put changes the table of one rank. -/
theorem rank_afterPut (q : Nat) : ∃ t, t.readyValues = (s.rank q).comm.ready.readyValues ∧
    (afterPut pp s i v).rank q = { s.rank q with comm := { (s.rank q).comm with ready := t } } := by
  show ∃ t, _ ∧ Function.update s.rank v.dst _ q = _
  rw [Function.update_apply]
  split
  · rename_i hq
    rw [hq]
    exact ⟨(s.rank v.dst).comm.ready.store (pp.job.tableAt v.dst) v.addr v.value, rfl, rfl⟩
  · exact ⟨(s.rank q).comm.ready, rfl, rfl⟩

/-- No rank does anything meanwhile. -/
theorem place_afterPut (q : Nat) : place pp q ((afterPut pp s i v).rank q) = place pp q (s.rank q) := by
  obtain ⟨t, -, hq⟩ := rank_afterPut pp s i v q
  rw [hq]
  rfl

theorem ran_afterPut (q : Nat) (b : StreamAct) :
    ran pp q ((afterPut pp s i v).rank q) b = ran pp q (s.rank q) b := by
  rw [ran, place_afterPut]
  rfl

theorem called_afterPut (q : Nat) (o : AsyncOp) :
    called pp q ((afterPut pp s i v).rank q) o = called pp q (s.rank q) o := by
  obtain ⟨t, -, hq⟩ := rank_afterPut pp s i v q
  rw [hq]
  rfl

theorem net_afterPut : (afterPut pp s i v).net = s.net.deliver pp.job i v := by
  have htables : (afterPut pp s i v).net.tables = (s.net.deliver pp.job i v).tables := by
    funext q
    show (Function.update s.rank v.dst _ q).comm.ready = Function.update s.net.tables v.dst _ q
    rw [Function.update_apply, Function.update_apply]
    split <;> rfl
  rw [AsyncState.net, Net.mk.injEq]
  exact ⟨htables, rfl, rfl, rfl⟩

theorem view_afterPut : view pp (afterPut pp s i v) = { view pp s with
    heard := setAt (view pp s).heard v.dst v.src v.no, notices := (view pp s).notices.eraseIdx i } := by
  apply Exchange.ext
  case posted =>
    funext a b
    obtain ⟨t, -, hb⟩ := rank_afterPut pp s i v b
    show (((afterPut pp s i v).rank b).recvq a).length = _
    rw [hb]
    rfl
  case told | passed =>
    funext a b
    exact ran_afterPut ..
  case round =>
    funext q
    exact congrArg Place.round (place_afterPut pp s i v q)
  case notices => exact (List.eraseIdx_map ..).symm
  case heard =>
    funext a b
    show arrivedNo (s.log ++ [.delivered v.src v.dst v.no]) a b = setAt (fun a b => arrivedNo s.log a b) _ _ _ a b
    rw [arrivedNo_append, setAt]
    simp only [and_comm, eq_comm]
  all_goals rfl

end Put

theorem AsyncInv.afterPut (h : AsyncInv pp s) {v : Put} (hv : s.flying[i]? = some v) :
    AsyncInv pp (afterPut pp s i v) ∧ Moves (Exchange.Step pp.Member) (view pp s) (view pp (afterPut pp s i v)) := by
  have hstep : Exchange.Step pp.Member (view pp s) (view pp (Asyncpong.afterPut pp s i v)) := by
    rw [view_afterPut]
    have hx : (view pp s).notices[i]? = some ⟨v.dst, v.src, v.no⟩ := by
      show (s.flying.map _)[i]? = _
      rw [List.getElem?_map, hv]
      rfl
    exact .hear hx
  refine ⟨?_, .single hstep⟩
  constructor
  case lane =>
    intro q hq
    obtain ⟨t, ht, hqt⟩ := rank_afterPut pp s i v q
    rw [hqt]
    exact (h.lane q hq).same ht _ (h.lane q hq).ran
  case ready =>
    rw [net_afterPut]
    exact h.ready.deliver hv
  case told =>
    intro q p hq
    rw [called_afterPut, ← h.told q p hq]
    show sentCount (s.log ++ [_]) q p = _
    rw [sentCount_append, sentCount_delivered]
    rfl
  case rung =>
    intro q p hq
    rw [ran_afterPut, called_afterPut]
    exact h.rung q p hq
  case held =>
    intro q p hq
    rw [ran_afterPut, called_afterPut, ← h.held q p hq]
    obtain ⟨t, -, hqt⟩ := rank_afterPut pp s i v q
    rw [hqt]
  case sent =>
    intro q p hq
    rw [ran_afterPut]
    exact h.sent q p hq
  case received =>
    intro q p hq
    rw [ran_afterPut]
    exact h.received q p hq
  case delivered =>
    intro q p hq
    rw [ran_afterPut]
    exact h.delivered q p hq
  case order => exact h.order.step hstep

theorem AsyncInv.afterMessage (h : AsyncInv pp s) {x y : Nat} (hx : pp.Member x) (hy : pp.Member y) (hne : x ≠ y)
    (hsent : s.arrived x y < s.sent x y) : AsyncInv pp (afterMessage s x y) ∧
      Moves (Exchange.Step pp.Member) (view pp s) (view pp (afterMessage s x y)) := by
  have hstep : Exchange.Step pp.Member (view pp s) (view pp (Asyncpong.afterMessage s x y)) :=
    .arrive (s := view pp s) ⟨hx, hy, hne⟩ hsent
  have hmono : ∀ a b, s.arrived a b ≤ (Asyncpong.afterMessage s x y).arrived a b := by
    intro a b
    show _ ≤ setAt s.arrived x y (s.arrived x y + 1) a b
    unfold setAt
    split
    · rename_i hab
      rw [hab.1, hab.2]
      exact Nat.le_succ _
    · exact Nat.le_refl _
  refine ⟨⟨h.lane, h.ready, h.told, h.rung, h.held, h.sent, fun q p hq => ?_, fun q p hq => ?_, h.order.step hstep⟩,
    .single hstep⟩
  · exact (h.received q p hq).trans (hmono ..)
  · exact (h.delivered q p hq).trans (hmono ..)

/-- A step of the job is a step of the exchange or none, and it keeps the job in order. -/
theorem AsyncInv.step (h : AsyncInv pp s) (hs : Step pp s s') :
    AsyncInv pp s' ∧ Moves (Exchange.Step pp.Member) (view pp s) (view pp s') := by
  cases hs with
  | @call r op rest tape x c hr hround htodo ht hstill hrun =>
    have hret : Returned pp r (s.rank r) op x c (rankAfter pp r (s.rank r) op x (puts pp s r op) c) :=
      returned (h.lane r hr) hr hround htodo ht hstill hrun
    exact ⟨h.afterCall hr htodo hret hround, h.exchange_call hr htodo hret hround⟩
  | @stream r o s' hr ho hexec =>
    obtain ⟨hround, a, l, htodo, hm⟩ := h.next_op hr ho
    rw [h.exec_eq hr hround ((place_in htodo).head_mem htodo) hm] at hexec
    obtain ⟨held, flying, sent, hacted, htick⟩ := acted_of_act hexec
    rw [htick]
    have hlt := (List.getElem?_eq_some_iff.mp ho).1
    exact ⟨h.ticked htodo hr hm hacted hlt, h.exchange_act htodo hr hm hacted⟩
  | put hv => exact h.afterPut hv
  | message hx hy hne hsent => exact h.afterMessage hx hy hne hsent

end Asyncpong

end LibMp
