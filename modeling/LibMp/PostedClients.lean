import Mathlib.Data.List.Perm.Subperm
import LibMp.PostedList

/- One call of `progress_posted_list`: what it leaves of the posted list of each
   client, for any outcome of each `gds_post_send`.

   For one client the call takes a prefix of the list away: the requests up to
   the first one that is not triggered or that the HCA refuses (`dropWhile`).
   A refusal ends the loop over the clients as well, so that the clients behind
   keep their lists. -/
namespace LibMp
variable {cfg : Config}

/-! ## The posted lists and the outcomes -/

/-- The posted list of client `c` is `l`. -/
def IsPosted (w : World) (c : Nat) (l : List Ptr) : Prop :=
  Dll (fun q => (w.mem q).next) (fun q => (w.mem q).prev) ((w.clients c).postedStreamReq .tx)
    ((w.clients c).lastPostedStreamReq .tx) l

theorem IsPosted.unique {w : World} {c : Nat} {l l' : List Ptr} (h : IsPosted w c l) (h' : IsPosted w c l') : l = l' :=
  h.fwd.unique h'.fwd

/-- Well-formed posted lists of the clients `cs`: the lists are apart, and hold
prepared sends and puts of the pool. -/
structure PostedWf (w : World) (pl : Nat → List Ptr) (cs : List Nat) : Prop where
  list : ∀ c ∈ cs, IsPosted w c (pl c)
  nodup : ∀ c ∈ cs, (pl c).Nodup
  apart : ∀ c ∈ cs, ∀ d ∈ cs, ∀ p ∈ pl c, p ∈ pl d → c = d
  pool : ∀ c ∈ cs, ∀ p ∈ pl c, p < w.frontier
  prepared : ∀ c ∈ cs, ∀ p ∈ pl c, (w.mem p).status = .prepared
  tx : ∀ c ∈ cs, ∀ p ∈ pl c, (w.mem p).type.tx = true

namespace World
variable (w : World) (post : Ptr → Int) (c : Nat)

/-- The id of the request is not above `last_trigger_id` of its client. -/
def triggered (p : Ptr) : Bool := (w.mem p).id ≤ (w.clients c).lastTriggerId .tx

/-- The request is triggered, and the HCA takes it; `post` says what
`gds_post_send` returns for each request. -/
def sent (p : Ptr) : Bool := w.triggered c p && post p = 0

/-- A triggered request that the HCA refuses stands in the list, behind such
that it takes. -/
def stuck (l : List Ptr) : Bool := (l.dropWhile (w.sent post c)).head?.any (w.triggered c)

/-- What `gds_post_send` returns for that request, 0 if there is none. -/
def outcome (l : List Ptr) : Int :=
  match l.dropWhile (w.sent post c) with
  | [] => 0
  | p :: _ => if w.triggered c p then post p else 0

/-- The answers that the loop over the list takes, while no stream runs. -/
def postAnswers : List Ptr → List Ans
  | [] => []
  | p :: rest =>
    {} :: if w.triggered c p then { rc := post p } :: if post p = 0 then postAnswers rest else [] else []

/-- The answers that the loop over the clients takes. -/
def postTape (pl : Nat → List Ptr) : List Nat → List Ans
  | [] => []
  | c :: rest => w.postAnswers post c (pl c) ++ if w.stuck post c (pl c) then [] else postTape pl rest

end World

/-- The list of each client is its old list without the longest prefix of
triggered requests that the HCA takes. -/
def AdvancesAlone (cfg : Config) (w w' : World) (post : Ptr → Int) (pl : Nat → List Ptr) : Prop :=
  ∀ c < cfg.clientCount, IsPosted w' c ((pl c).dropWhile (w.sent post c))

theorem outcome_ne_zero_iff (w : World) (post : Ptr → Int) (c : Nat) (l : List Ptr) :
    w.outcome post c l ≠ 0 ↔ w.stuck post c l = true := by
  unfold World.outcome World.stuck
  cases hd : l.dropWhile (w.sent post c) with
  | nil => simp
  | cons p rest =>
    have hp : w.sent post c p = false := by
      have hne : l.dropWhile (w.sent post c) ≠ [] := by simp [hd]
      have hhead := List.head_dropWhile_not (w.sent post c) hne
      simpa [hd] using hhead
    cases ht : w.triggered c p with
    | false => simp [ht]
    | true =>
      have hpost : post p ≠ 0 := by
        intro h0
        simp [World.sent, ht, h0] at hp
      simp [ht, hpost]

/-! ## One client -/

/-- What the loop over the lists of the clients `cs`, which hold the requests
`l`, leaves as it was. -/
structure SameElsewhere (cs : List Nat) (l : List Ptr) (w w' : World) : Prop where
  frontier : w'.frontier = w.frontier
  id : ∀ q, (w'.mem q).id = (w.mem q).id
  trigger : ∀ d, (w'.clients d).lastTriggerId = (w.clients d).lastTriggerId
  req : ∀ q, q ∉ l → w'.mem q = w.mem q
  client : ∀ d, d ∉ cs → w'.clients d = w.clients d

namespace SameElsewhere
variable {cs : List Nat} {l : List Ptr} {w w' w'' : World}

theorem refl (w : World) : SameElsewhere cs l w w := ⟨rfl, fun _ => rfl, fun _ => rfl, fun _ _ => rfl, fun _ _ => rfl⟩

theorem trans (h : SameElsewhere cs l w w') (h' : SameElsewhere cs l w' w'') : SameElsewhere cs l w w'' where
  frontier := h'.frontier.trans h.frontier
  id q := (h'.id q).trans (h.id q)
  trigger d := (h'.trigger d).trans (h.trigger d)
  req q hq := (h'.req q hq).trans (h.req q hq)
  client d hd := (h'.client d hd).trans (h.client d hd)

theorem mono {ds : List Nat} {m : List Ptr} (h : SameElsewhere cs l w w') (hcs : ∀ d ∈ cs, d ∈ ds)
    (hl : ∀ q ∈ l, q ∈ m) : SameElsewhere ds m w w' :=
  { h with
    req := fun q hq => h.req q fun hm => hq (hl q hm)
    client := fun d hd => h.client d fun hm => hd (hcs d hm) }

theorem triggered (h : SameElsewhere cs l w w') (d : Nat) : w'.triggered d = w.triggered d := by
  funext p
  unfold World.triggered
  rw [h.id p, h.trigger d]

theorem sent (h : SameElsewhere cs l w w') (post : Ptr → Int) (d : Nat) : w'.sent post d = w.sent post d := by
  funext p
  unfold World.sent
  rw [h.triggered d]

theorem stuck (h : SameElsewhere cs l w w') (post : Ptr → Int) (d : Nat) (m : List Ptr) :
    w'.stuck post d m = w.stuck post d m := by
  unfold World.stuck
  rw [h.triggered d, h.sent post d]

theorem outcome (h : SameElsewhere cs l w w') (post : Ptr → Int) (d : Nat) (m : List Ptr) :
    w'.outcome post d m = w.outcome post d m := by
  unfold World.outcome
  rw [h.triggered d, h.sent post d]

theorem postAnswers (h : SameElsewhere cs l w w') (post : Ptr → Int) (d : Nat) (m : List Ptr) :
    w'.postAnswers post d m = w.postAnswers post d m := by
  induction m with
  | nil => rfl
  | cons p rest ih => rw [World.postAnswers, World.postAnswers, h.triggered d, ih]

theorem postTape (h : SameElsewhere cs l w w') (post : Ptr → Int) (pl : Nat → List Ptr) (ds : List Nat) :
    w'.postTape post pl ds = w.postTape post pl ds := by
  induction ds with
  | nil => rfl
  | cons d rest ih => rw [World.postTape, World.postTape, h.postAnswers post d, h.stuck post d, ih]

/-- A list of another client that holds none of these requests. -/
theorem isPosted (h : SameElsewhere cs l w w') {d : Nat} (hd : d ∉ cs) {m : List Ptr} (hm : ∀ p ∈ m, p ∉ l)
    (hp : IsPosted w d m) : IsPosted w' d m := by
  unfold IsPosted
  rw [h.client d hd]
  exact hp.frame (fun p hpm => by rw [h.req p (hm p hpm)]) (fun p hpm => by rw [h.req p (hm p hpm)])

end SameElsewhere

/-- The first request of the list is handed over: it leaves the list. -/
theorem handOver_isPosted {w : World} {c : Nat} {p : Ptr} {l : List Ptr} (h : IsPosted w c (p :: l))
    (hnd : (p :: l).Nodup) : IsPosted ((w.accept c .tx p).handOver c .tx p) c l ∧
      SameElsewhere [c] (p :: l) w ((w.accept c .tx p).handOver c .tx p) ∧
      ∀ q ∈ l, (((w.accept c .tx p).handOver c .tx p).mem q).status = (w.mem q).status ∧
        (((w.accept c .tx p).handOver c .tx p).mem q).type = (w.mem q).type := by
  obtain ⟨hm, hcl⟩ := w.handOver_eq c .tx p
  obtain ⟨hpl, hprev, hmem, hnext⟩ := h.head_links hnd
  refine ⟨?_, ?_, ?_⟩
  · unfold IsPosted
    rw [hm, hcl]
    exact World.delink_pending_dll h hnd
  · constructor
    case frontier =>
      rw [World.handOver]
      exact (World.delink_rest (w := ((w.accept c .tx p).addLog _).setStatus p .pending)).1
    case id =>
      intro q
      obtain ⟨n, v, hq⟩ := w.handOver_mem c .tx p q
      rw [hq]
    case trigger =>
      intro d
      obtain ⟨x, y, hd⟩ := w.handOver_clients c .tx p d
      rw [hd]
    case req =>
      intro q hq
      have hqp : q ≠ p := fun heq => hq (heq ▸ List.mem_cons_self)
      rw [hm, World.delink_pending_mem hprev hnext, if_neg hqp, if_neg]
      exact fun hn => hq (List.mem_cons_of_mem p (hmem q hn))
    case client =>
      intro d hd
      rw [hcl, World.delink_pending_clients hprev h.fwd.1, if_neg (by simpa using hd)]
  · intro q hq
    have hqp : q ≠ p := fun heq => hpl (heq ▸ hq)
    obtain ⟨n, v, hmq⟩ := w.handOver_mem c .tx p q
    rw [hmq, if_neg hqp]
    exact ⟨rfl, rfl⟩

/-- The loop over the list of one client. -/
theorem progressPosted_run (post : Ptr → Int) {c : Nat} (rest : List Ans) {l : List Ptr} {w : World}
    (h : IsPosted w c l) (hnd : l.Nodup) (hst : ∀ p ∈ l, (w.mem p).status = .prepared)
    (htx : ∀ p ∈ l, (w.mem p).type.tx = true) {fuel : Nat} (hfuel : l.length < fuel) :
    ∃ w', progressPosted c .tx fuel ⟨w, w.postAnswers post c l ++ rest⟩ = (.ok (w.outcome post c l), ⟨w', rest⟩) ∧
      IsPosted w' c (l.dropWhile (w.sent post c)) ∧ SameElsewhere [c] l w w' := by
  induction l generalizing w fuel with
  | nil =>
    obtain ⟨fuel, rfl⟩ := Nat.exists_eq_succ_of_ne_zero (Nat.ne_of_gt hfuel)
    have hhead : (w.clients c).postedStreamReq .tx = none := h.fwd
    refine ⟨w, ?_, h, .refl w⟩
    simp [progressPosted, client, world, Prog.bind_run, Prog.pure_run, World.postAnswers, World.outcome, hhead]
  | cons p l ih =>
    obtain ⟨fuel, rfl⟩ := Nat.exists_eq_succ_of_ne_zero (Nat.ne_of_gt (Nat.zero_lt_of_lt hfuel))
    have hhead : (w.clients c).postedStreamReq .tx = some p := h.fwd.1
    have hprep : (w.mem p).status = .prepared := hst p List.mem_cons_self
    have htype : (w.mem p).type.tx = true := htx p List.mem_cons_self
    cases ht : w.triggered c p with
    | false =>
      -- the id is above `last_trigger_id`
      have hlt : (w.clients c).lastTriggerId .tx < (w.mem p).id := by
        simpa [World.triggered] using ht
      have hs : w.sent post c p = false := by simp [World.sent, ht]
      refine ⟨w, ?_, by rw [List.dropWhile_cons_of_neg (by simp [hs])]; exact h, .refl w⟩
      simp [progressPosted, client, world, request, streamsRun, answer, update, runStreams, Prog.bind_run, Prog.pure_run,
        World.postAnswers, World.outcome, hhead, ht, hs, hlt]
    | true =>
      have hle : ¬ (w.clients c).lastTriggerId .tx < (w.mem p).id := by
        simpa [World.triggered] using ht
      by_cases hpost : post p = 0
      · -- handed over, and on with the rest of the list
        have hs : w.sent post c p = true := by simp [World.sent, ht, hpost]
        obtain ⟨hl, hsame, hkeep⟩ := handOver_isPosted h hnd
        have hrest : l.length < fuel := Nat.lt_of_succ_lt_succ hfuel
        obtain ⟨w', hrun, hposted, hsame'⟩ := ih hl (List.nodup_cons.mp hnd).2
          (fun q hq => (hkeep q hq).1.trans (hst q (List.mem_cons_of_mem p hq)))
          (fun q hq => by rw [(hkeep q hq).2]; exact htx q (List.mem_cons_of_mem p hq)) hrest
        rw [hsame.postAnswers, hsame.outcome] at hrun
        rw [hsame.sent] at hposted
        refine ⟨w', ?_, ?_, hsame.trans (hsame'.mono (fun _ hd => hd) fun q hq => List.mem_cons_of_mem p hq)⟩
        · have hout : w.outcome post c (p :: l) = w.outcome post c l := by
            simp [World.outcome, List.dropWhile_cons_of_pos, hs]
          rw [hout, ← hrun]
          simp [progressPosted, client, world, request, streamsRun, answer, update, runStreams, postHead, gdsPostSend,
            returnCode, Prog.bind_run, Prog.pure_run, Prog.require, World.postAnswers, hhead, ht, hle, hpost, hprep,
            htype]
        · rw [List.dropWhile_cons_of_pos hs]
          exact hposted
      · -- refused
        have hs : w.sent post c p = false := by simp [World.sent, hpost]
        refine ⟨w, ?_, by rw [List.dropWhile_cons_of_neg (by simp [hs])]; exact h, .refl w⟩
        simp [progressPosted, client, world, request, streamsRun, answer, update, runStreams, postHead, gdsPostSend,
          returnCode, Prog.bind_run, Prog.pure_run, Prog.require, World.postAnswers, World.outcome, hhead, ht, hs, hle,
          hpost, hprep, htype]

/-! ## All clients -/

/-- The clients that the loop comes to: up to the first one where it is stuck. -/
def reached (stuck : Nat → Bool) : List Nat → List Nat
  | [] => []
  | c :: rest => c :: if stuck c then [] else reached stuck rest

/-- The loop comes to a client if it is stuck at none before. -/
theorem mem_reached_range' {stuck : Nat → Bool} (n a d : Nat) :
    d ∈ reached stuck (List.range' a n) ↔ (a ≤ d ∧ d < a + n) ∧ ∀ c, a ≤ c → c < d → stuck c = false := by
  induction n generalizing a with
  | zero =>
    rw [List.range'_zero]
    constructor
    · intro h
      cases h
    · rintro ⟨⟨hle, hlt⟩, -⟩
      omega
  | succ n ih =>
    rw [List.range'_succ, reached, List.mem_cons]
    cases hs : stuck a with
    | true =>
      simp only [if_true, List.not_mem_nil, or_false]
      constructor
      · rintro rfl
        exact ⟨⟨Nat.le_refl d, by omega⟩, fun c h₁ h₂ => by omega⟩
      · rintro ⟨⟨hle, -⟩, hall⟩
        by_contra hne
        have hfalse := hall a (Nat.le_refl a) (by omega)
        rw [hs] at hfalse
        cases hfalse
    | false =>
      rw [if_neg (by simp), ih]
      constructor
      · rintro (rfl | ⟨⟨hle, hlt⟩, hall⟩)
        · exact ⟨⟨Nat.le_refl d, by omega⟩, fun c h₁ h₂ => by omega⟩
        · refine ⟨⟨by omega, by omega⟩, fun c h₁ h₂ => ?_⟩
          rcases Nat.eq_or_lt_of_le h₁ with rfl | h₁
          · exact hs
          · exact hall c h₁ h₂
      · rintro ⟨⟨hle, hlt⟩, hall⟩
        rcases Nat.eq_or_lt_of_le hle with rfl | hlt'
        · exact .inl rfl
        · exact .inr ⟨⟨hlt', by omega⟩, fun c h₁ h₂ => hall c (by omega) h₂⟩

/-- The lists of the other clients are well formed as before. -/
theorem PostedWf.tail {w w' : World} {pl : Nat → List Ptr} {c : Nat} {cs : List Nat} (h : PostedWf w pl (c :: cs))
    (hc : c ∉ cs) (hsame : SameElsewhere [c] (pl c) w w') : PostedWf w' pl cs := by
  have hnot : ∀ d ∈ cs, ∀ p ∈ pl d, p ∉ pl c := by
    intro d hd p hp hpc
    refine hc ?_
    rw [h.apart c List.mem_cons_self d (List.mem_cons_of_mem c hd) p hpc hp]
    exact hd
  have hreq : ∀ d ∈ cs, ∀ p ∈ pl d, w'.mem p = w.mem p := fun d hd p hp => hsame.req p (hnot d hd p hp)
  constructor
  case list =>
    intro d hd
    have hdc : d ∉ [c] := fun hm => hc (List.mem_singleton.mp hm ▸ hd)
    exact hsame.isPosted hdc (hnot d hd) (h.list d (List.mem_cons_of_mem c hd))
  case nodup => exact fun d hd => h.nodup d (List.mem_cons_of_mem c hd)
  case apart =>
    exact fun d hd e he => h.apart d (List.mem_cons_of_mem c hd) e (List.mem_cons_of_mem c he)
  case pool =>
    intro d hd p hp
    rw [hsame.frontier]
    exact h.pool d (List.mem_cons_of_mem c hd) p hp
  case prepared =>
    intro d hd p hp
    rw [hreq d hd p hp]
    exact h.prepared d (List.mem_cons_of_mem c hd) p hp
  case tx =>
    intro d hd p hp
    rw [hreq d hd p hp]
    exact h.tx d (List.mem_cons_of_mem c hd) p hp

/-- A list of distinct requests of the pool is no longer than the pool. -/
theorem PostedWf.length_le {w : World} {pl : Nat → List Ptr} {cs : List Nat} (h : PostedWf w pl cs) {c : Nat}
    (hc : c ∈ cs) : (pl c).length ≤ w.frontier := by
  have hsub : pl c ⊆ List.range w.frontier := fun p hp => List.mem_range.mpr (h.pool c hc p hp)
  simpa using (List.subperm_of_subset (h.nodup c hc) hsub).length_le

/-- The loop over the clients `cs`: those it comes to have lost their prefix,
the others have their lists. -/
theorem progressPostedClients_run (post : Ptr → Int) {pl : Nat → List Ptr} (rest : List Ans) {cs : List Nat}
    (hcs : cs.Nodup) {w : World} (h : PostedWf w pl cs) :
    ∃ ret w', progressPostedClients .tx cs ⟨w, w.postTape post pl cs ++ rest⟩ = (.ok ret, ⟨w', rest⟩) ∧
      SameElsewhere cs (cs.flatMap pl) w w' ∧
      ∀ d ∈ cs, IsPosted w' d (if d ∈ reached (fun c => w.stuck post c (pl c)) cs then
        (pl d).dropWhile (w.sent post d) else pl d) := by
  induction cs generalizing w with
  | nil => exact ⟨0, w, rfl, .refl w, fun d hd => by cases hd⟩
  | cons c cs ih =>
    obtain ⟨hcc, hnd⟩ := List.nodup_cons.mp hcs
    have hself : c ∈ c :: cs := List.mem_cons_self
    obtain ⟨w₁, hrun, hposted, hsame⟩ := progressPosted_run post
      ((if w.stuck post c (pl c) then [] else w.postTape post pl cs) ++ rest) (h.list c hself) (h.nodup c hself)
      (h.prepared c hself) (h.tx c hself) (Nat.lt_succ_of_le (h.length_le hself))
    have hwf := h.tail hcc hsame
    have hfirst : SameElsewhere (c :: cs) ((c :: cs).flatMap pl) w w₁ :=
      hsame.mono (fun d hd => List.mem_singleton.mp hd ▸ hself)
        fun q hq => List.mem_flatMap.mpr ⟨c, hself, hq⟩
    rw [← List.append_assoc] at hrun
    have hret := outcome_ne_zero_iff w post c (pl c)
    cases hs : w.stuck post c (pl c) with
    | true =>
      rw [hs] at hret
      refine ⟨w.outcome post c (pl c), w₁, ?_, hfirst, ?_⟩
      · rw [World.postTape, progressPostedClients, Prog.bind_ok (show world _ = (.ok w, _) from rfl), Prog.bind_ok hrun,
          if_pos (hret.mpr rfl), hs]
        rfl
      · intro d hd
        rw [reached, hs, if_pos rfl]
        rcases List.mem_cons.mp hd with rfl | hd
        · rw [if_pos (List.mem_singleton.mpr rfl)]
          exact hposted
        · have hdc : d ∉ [c] := fun hm => hcc (List.mem_singleton.mp hm ▸ hd)
          rw [if_neg hdc]
          exact hwf.list d hd
    | false =>
      rw [hs] at hret hrun
      have hzero : w.outcome post c (pl c) = 0 := by
        by_contra hne
        cases hret.mp hne
      obtain ⟨ret, w₂, hrun₂, hsame₂, hposted₂⟩ := ih hnd hwf
      rw [hsame.postTape] at hrun₂
      refine ⟨ret, w₂, ?_, ?_, ?_⟩
      · rw [World.postTape, hs, progressPostedClients, Prog.bind_ok (show world _ = (.ok w, _) from rfl),
          Prog.bind_ok hrun, hzero]
        exact hrun₂
      · exact hfirst.trans (hsame₂.mono (fun d hd => List.mem_cons_of_mem c hd) fun q hq => by
          obtain ⟨d, hd, hqd⟩ := List.mem_flatMap.mp hq
          exact List.mem_flatMap.mpr ⟨d, List.mem_cons_of_mem c hd, hqd⟩)
      · intro d hd
        have hreach : reached (fun c => w.stuck post c (pl c)) (c :: cs) =
            c :: reached (fun c => w.stuck post c (pl c)) cs := by
          simp [reached, hs]
        rw [hreach]
        rcases List.mem_cons.mp hd with rfl | hd
        · -- the loop over the others leaves the list of the first client
          rw [if_pos List.mem_cons_self]
          refine hsame₂.isPosted hcc (fun p hp hm => hcc ?_) hposted
          obtain ⟨e, he, hpe⟩ := List.mem_flatMap.mp hm
          have hpd : p ∈ pl d := (List.dropWhile_sublist _).subset hp
          rw [h.apart d hself e (List.mem_cons_of_mem d he) p hpd hpe]
          exact he
        · have hdc : d ≠ c := fun heq => hcc (heq ▸ hd)
          have hgo := hposted₂ d hd
          simp only [hsame.stuck, hsame.sent] at hgo
          simpa [hdc] using hgo

/-- What the call does to the lists, client by client. -/
theorem progressPostedList_run (he : cfg.useEventSync = true) {w : World} {pl : Nat → List Ptr}
    (h : PostedWf w pl (List.range cfg.clientCount)) (post : Ptr → Int) (rest : List Ans) :
    ∃ ret w', progressPostedList cfg .tx ⟨w, w.postTape post pl (List.range cfg.clientCount) ++ rest⟩ =
        (.ok ret, ⟨w', rest⟩) ∧
      ∀ d < cfg.clientCount, IsPosted w' d (if ∀ c < d, w.stuck post c (pl c) = false then
        (pl d).dropWhile (w.sent post d) else pl d) := by
  obtain ⟨ret, w', hrun, -, hposted⟩ := progressPostedClients_run post rest (List.nodup_range) h
  refine ⟨ret, w', ?_, fun d hd => ?_⟩
  · rw [progressPostedList, if_pos he]
    exact hrun
  · have hmem : d ∈ reached (fun c => w.stuck post c (pl c)) (List.range cfg.clientCount) ↔
        ∀ c < d, w.stuck post c (pl c) = false := by
      rw [List.range_eq_range', mem_reached_range']
      simp [hd]
    simpa only [hmem] using hposted d (List.mem_range.mpr hd)

/-- For any number of clients, any well-formed lists and trigger values and any
outcome of each `gds_post_send`: the list of each client loses its longest
prefix of triggered requests that the HCA takes, exactly if behind a client
with a triggered request that the HCA refuses no client has a first request
that is triggered and would be taken. -/
theorem posted_lists_advance_alone (he : cfg.useEventSync = true) {w : World} {pl : Nat → List Ptr}
    (h : PostedWf w pl (List.range cfg.clientCount)) (post : Ptr → Int) (rest : List Ans) :
    ∃ ret w', progressPostedList cfg .tx ⟨w, w.postTape post pl (List.range cfg.clientCount) ++ rest⟩ =
        (.ok ret, ⟨w', rest⟩) ∧
      (AdvancesAlone cfg w w' post pl ↔ ∀ c d, c < d → d < cfg.clientCount → w.stuck post c (pl c) = true →
        ∀ p, (pl d).head? = some p → w.sent post d p = false) := by
  obtain ⟨ret, w', hrun, hposted⟩ := progressPostedList_run he h post rest
  refine ⟨ret, w', hrun, ⟨fun hadv c d hcd hd hs p hp => ?_, fun hcond d hd => ?_⟩⟩
  · -- the list of `d` has stayed, so its first request is not sent
    have hkept := hposted d hd
    rw [if_neg (fun hall => by rw [hall c hcd] at hs; cases hs)] at hkept
    have hsame := hkept.unique (hadv d hd)
    obtain ⟨l, hl⟩ := List.head?_eq_some_iff.mp hp
    rw [hl] at hsame
    by_contra hsent
    rw [List.dropWhile_cons_of_pos (by simpa using hsent)] at hsame
    have hlen := (List.dropWhile_sublist (l := l) (w.sent post d)).length_le
    rw [← hsame, List.length_cons] at hlen
    exact absurd hlen (Nat.not_succ_le_self _)
  · have hgo := hposted d hd
    split at hgo
    · exact hgo
    · rename_i hnot
      push Not at hnot
      obtain ⟨c, hcd, hs⟩ := hnot
      cases hl : pl d with
      | nil =>
        rw [hl] at hgo
        exact hgo
      | cons p l =>
        have hp := hcond c d hcd hd (by simpa using hs) p (by rw [hl]; rfl)
        rw [List.dropWhile_cons_of_neg (by simp [hp]), ← hl]
        exact hgo

/-- Two peers, of ranks 1 and 2, with event sync. -/
def twoEventPeers : Config := { useEventSync := true, peers := [1, 2] }

/-- A send to each, request 0 and request 1, and the trigger write of both. -/
def sentToBoth : World :=
  World.init.after twoEventPeers [.call (.isendOnStream 0 8 1 ⟨0⟩ 0) [], .call (.isendOnStream 0 8 2 ⟨0⟩ 0) [],
    .gpu (.run 0), .gpu (.run 0)]

theorem sentToBoth_reach : Reach twoEventPeers EventCalls sentToBoth :=
  Reach.init.after twoEventPeers ⟨trivial, by decide, trivial, by decide, trivial, by decide, trivial, by decide, trivial⟩

theorem sentToBoth_wf : PostedWf sentToBoth (fun c => [c]) (List.range twoEventPeers.clientCount) := by
  have hmem : ∀ c ∈ List.range twoEventPeers.clientCount, (sentToBoth.clients c).postedStreamReq .tx = some c ∧
      (sentToBoth.clients c).lastPostedStreamReq .tx = some c ∧ (sentToBoth.mem c).next = none ∧
      (sentToBoth.mem c).prev = none ∧ c < sentToBoth.frontier ∧ (sentToBoth.mem c).status = .prepared ∧
      (sentToBoth.mem c).type.tx = true := by
    decide
  constructor
  case list =>
    intro c hc
    obtain ⟨hhead, hlast, hnext, hprev, -⟩ := hmem c hc
    unfold IsPosted
    rw [hhead, hlast]
    exact Dll.singleton hnext hprev
  case nodup => exact fun c _ => List.nodup_singleton c
  case apart =>
    intro c _ d _ p hp hp'
    exact (List.mem_singleton.mp hp).symm.trans (List.mem_singleton.mp hp')
  case pool =>
    intro c hc p hp
    rw [List.mem_singleton.mp hp]
    exact (hmem c hc).2.2.2.2.1
  case prepared =>
    intro c hc p hp
    rw [List.mem_singleton.mp hp]
    exact (hmem c hc).2.2.2.2.2.1
  case tx =>
    intro c hc p hp
    rw [List.mem_singleton.mp hp]
    exact (hmem c hc).2.2.2.2.2.2

/-- The HCA takes both: both lists are empty afterwards. -/
theorem posted_lists_advance_alone_taken :
    ∃ ret w', progressPostedList twoEventPeers .tx ⟨sentToBoth, [{}, {}, {}, {}]⟩ = (.ok ret, ⟨w', []⟩) ∧
      IsPosted w' 0 [] ∧ IsPosted w' 1 [] := by
  obtain ⟨ret, w', hrun, hiff⟩ := posted_lists_advance_alone rfl sentToBoth_wf (fun _ => 0) []
  have hstuck : ∀ d < twoEventPeers.clientCount, ∀ c < d, sentToBoth.stuck (fun _ => 0) c [c] = false := by decide
  have hadv := hiff.mpr fun c d hcd hd hs => by
    rw [hstuck d hd c hcd] at hs
    cases hs
  exact ⟨ret, w', hrun, hadv 0 (by decide), hadv 1 (by decide)⟩

/-- The queue pair of the first client is full: the triggered send to the second
one stays on its list, although the HCA would take it. -/
theorem full_queue_stops_the_others :
    ∃ w w' post ret, Reach twoEventPeers EventCalls w ∧ PostedWf w (fun c => [c]) (List.range twoEventPeers.clientCount) ∧
      progressPostedList twoEventPeers .tx ⟨w, [{}, { rc := enomem }]⟩ = (.ok ret, ⟨w', []⟩) ∧
      w.sent post 1 1 = true ∧ IsPosted w' 1 [1] ∧ ¬ AdvancesAlone twoEventPeers w w' post fun c => [c] := by
  have hlist : IsPosted (progressPostedList twoEventPeers .tx ⟨sentToBoth, [{}, { rc := enomem }]⟩).2.w 1 [1] :=
    ⟨⟨by decide, rfl⟩, ⟨by decide, rfl⟩⟩
  refine ⟨sentToBoth, _, fun p => if p = 0 then enomem else 0, enomem, sentToBoth_reach, sentToBoth_wf, rfl, by decide,
    hlist, fun hadv => ?_⟩
  have hempty := hadv 1 (by decide)
  rw [show ([1] : List Ptr).dropWhile (sentToBoth.sent (fun p => if p = 0 then enomem else 0) 1) = [] by decide] at hempty
  cases hlist.unique hempty

end LibMp
