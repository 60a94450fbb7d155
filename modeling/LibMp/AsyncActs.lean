import LibMp.Asyncpong

/- What an iteration of `async_exchange` does on the stream, and in which order.

   The calls of an iteration and what they hand to the stream are two loops, the
   second fed by the first (`Place.fed`). -/
namespace LibMp

/-- What a stream does: ring for the put, wait for the word, ring for the
message, and wait for the completions. -/
inductive StreamAct where
  | put (peer : Nat)
  | ready (peer : Nat)
  | send (peer : Nat)
  | recvDone (peer : Nat)
  | sendDone (peer : Nat)
  deriving DecidableEq, Repr

/-- What a call hands to the stream. -/
def AsyncOp.acts (n r : Nat) : AsyncOp → List StreamAct
  | .sendReady peer => [.put peer]
  | .waitReady peer => [.ready peer]
  | .isend peer => [.send peer]
  | .waitRecvs => (commPeers n r).map .recvDone
  | .waitSends => (commPeers n r).map .sendDone
  | .irecv _ | .progress => []

/-- The iteration of the stream. -/
def streamActs (n r : Nat) : List StreamAct := (asyncExchange n r).flatMap (AsyncOp.acts n r)

section Calls
variable {n r p : Nat} {op : AsyncOp}

theorem mem_asyncPosts : op ∈ asyncPosts n r ↔
    ∃ p, (p < n ∧ p ≠ r) ∧ (op = .irecv p ∨ op = .sendReady p ∨ op = .waitReady p ∨ op = .isend p) := by
  simp only [asyncPosts, List.mem_append, List.mem_flatMap, mem_commPeers, List.mem_cons, List.not_mem_nil, or_false]
  constructor
  · rintro (⟨p, hp, h⟩ | ⟨p, hp, h⟩)
    · exact ⟨p, hp, by tauto⟩
    · exact ⟨p, hp, by tauto⟩
  · rintro ⟨p, hp, h⟩
    rcases h with h | h | h | h
    · exact .inl ⟨p, hp, .inl h⟩
    · exact .inl ⟨p, hp, .inr h⟩
    · exact .inr ⟨p, hp, .inl h⟩
    · exact .inr ⟨p, hp, .inr h⟩

theorem asyncPosts_nodup (n r : Nat) : (asyncPosts n r).Nodup := by
  refine List.nodup_append.mpr ⟨?_, ?_, ?_⟩
  · exact pairs_nodup (commPeers_nodup n r) (fun _ _ => AsyncOp.irecv.inj) (fun _ _ => AsyncOp.sendReady.inj) (by simp)
  · exact pairs_nodup (commPeers_nodup n r) (fun _ _ => AsyncOp.waitReady.inj) (fun _ _ => AsyncOp.isend.inj) (by simp)
  · intro op hop op' hop' he
    simp only [List.mem_flatMap, List.mem_cons, List.not_mem_nil, or_false] at hop hop'
    obtain ⟨p, -, hp⟩ := hop
    obtain ⟨q, -, hq⟩ := hop'
    rw [he] at hp
    rcases hp with rfl | rfl <;> simp at hq

theorem asyncExchange_nodup (n r : Nat) : (asyncExchange n r).Nodup := by
  refine List.nodup_append.mpr ⟨asyncPosts_nodup n r, by decide, fun op hop op' hop' he => ?_⟩
  obtain ⟨p, -, h⟩ := mem_asyncPosts.mp hop
  simp only [List.mem_cons, List.not_mem_nil, or_false] at hop'
  rw [he] at h
  rcases hop' with rfl | rfl | rfl <;> simp at h

theorem mem_asyncExchange : op ∈ asyncExchange n r ↔
    op ∈ asyncPosts n r ∨ op = .waitRecvs ∨ op = .waitSends ∨ op = .progress := by
  simp [asyncExchange]

theorem commPeers_length_le (n r : Nat) : (commPeers n r).length ≤ n := by
  have hle := List.length_filter_le (· ≠ r) (List.range n)
  rwa [List.length_range] at hle

/-- Four calls for each other rank, and three more. -/
theorem asyncExchange_length_le (n r : Nat) : (asyncExchange n r).length ≤ 4 * n + 3 := by
  have hpeers := commPeers_length_le n r
  simp only [asyncExchange, asyncPosts, List.length_append, List.length_flatMap, List.length_cons, List.length_nil,
    List.map_const', List.sum_replicate, Nat.nsmul_eq_mul]
  omega

theorem irecv_before_put (hp : p < n ∧ p ≠ r) : [AsyncOp.irecv p, .sendReady p].Sublist (asyncExchange n r) :=
  ((sublist_flatMap (f := fun q => [AsyncOp.irecv q, .sendReady q]) (mem_commPeers.mpr hp)).trans
    (List.sublist_append_left ..)).trans (List.sublist_append_left ..)

end Calls

/-! ## The requests of an iteration -/

/-- The peers of the requests a rank has stored since the last wait for them. -/
def opened (f : AsyncOp → Option Nat) (wait : AsyncOp) (l : List AsyncOp) : List Nat :=
  l.foldl (fun ps op => if op = wait then [] else ps ++ (f op).toList) []

def AsyncOp.recvPeer : AsyncOp → Option Nat
  | .irecv p => some p
  | _ => none

def AsyncOp.sendPeer : AsyncOp → Option Nat
  | .isend p => some p
  | _ => none

section Opened
variable {f : AsyncOp → Option Nat} {wait : AsyncOp}

theorem opened_concat (l : List AsyncOp) (op : AsyncOp) :
    opened f wait (l ++ [op]) = if op = wait then [] else opened f wait l ++ (f op).toList := by
  rw [opened, List.foldl_append]
  rfl

/-- A call that stores nothing and waits for nothing. -/
theorem opened_other (l : List AsyncOp) {op : AsyncOp} (hop : op ≠ wait) (hf : f op = none) :
    opened f wait (l ++ [op]) = opened f wait l := by
  rw [opened_concat, if_neg hop, hf]
  exact List.append_nil _

/-- Where nobody waits all requests are stored. -/
theorem opened_eq {l : List AsyncOp} (h : wait ∉ l) : opened f wait l = l.filterMap f := by
  induction l using List.reverseRecOn with
  | nil => rfl
  | append_singleton l op ih =>
    have hop : op ≠ wait := fun he => h (by rw [he]; simp)
    rw [opened_concat, if_neg hop, ih fun hm => h (List.mem_append_left _ hm), List.filterMap_append]
    cases hf : f op <;> simp [hf]

end Opened

/-- At the end of an iteration all were waited for. -/
theorem opened_asyncExchange (n r : Nat) : opened AsyncOp.recvPeer .waitRecvs (asyncExchange n r) = [] ∧
    opened AsyncOp.sendPeer .waitSends (asyncExchange n r) = [] := by
  have hsplit : asyncExchange n r = asyncPosts n r ++ [.waitRecvs] ++ [.waitSends] ++ [.progress] := by
    simp [asyncExchange]
  rw [hsplit]
  simp only [opened_concat]
  exact ⟨rfl, rfl⟩

theorem asyncPosts_recvPeers (n r : Nat) : (asyncPosts n r).filterMap AsyncOp.recvPeer = commPeers n r := by
  have hrecv : ∀ p, [AsyncOp.irecv p, .sendReady p].filterMap AsyncOp.recvPeer = [p] := fun _ => rfl
  have hsend : ∀ p, [AsyncOp.waitReady p, .isend p].filterMap AsyncOp.recvPeer = [] := fun _ => rfl
  simp [asyncPosts, List.filterMap_append, List.filterMap_flatMap, hrecv, hsend]

theorem asyncPosts_sendPeers (n r : Nat) : (asyncPosts n r).filterMap AsyncOp.sendPeer = commPeers n r := by
  have hrecv : ∀ p, [AsyncOp.irecv p, .sendReady p].filterMap AsyncOp.sendPeer = [] := fun _ => rfl
  have hsend : ∀ p, [AsyncOp.waitReady p, .isend p].filterMap AsyncOp.sendPeer = [p] := fun _ => rfl
  simp [asyncPosts, List.filterMap_append, List.filterMap_flatMap, hrecv, hsend]

/-! ## The iteration of the stream -/

/-- What comes before the waits for the completions. -/
def streamPosts (n r : Nat) : List StreamAct :=
  (commPeers n r).map .put ++ (commPeers n r).flatMap fun p => [.ready p, .send p]

theorem streamActs_eq (n r : Nat) : streamActs n r =
    streamPosts n r ++ ((commPeers n r).map .recvDone ++ (commPeers n r).map .sendDone) := by
  simp [streamActs, asyncExchange, asyncPosts, streamPosts, List.flatMap_append, List.flatMap_assoc, AsyncOp.acts,
    List.map_eq_flatMap]

section Stream
variable {n r p q : Nat} {a : StreamAct}

theorem mem_streamPosts : a ∈ streamPosts n r ↔ ∃ p, (p < n ∧ p ≠ r) ∧ (a = .put p ∨ a = .ready p ∨ a = .send p) := by
  simp only [streamPosts, List.mem_append, List.mem_map, List.mem_flatMap, mem_commPeers, List.mem_cons,
    List.not_mem_nil, or_false]
  constructor
  · rintro (⟨p, hp, rfl⟩ | ⟨p, hp, h⟩)
    · exact ⟨p, hp, .inl rfl⟩
    · exact ⟨p, hp, .inr h⟩
  · rintro ⟨p, hp, rfl | h⟩
    · exact .inl ⟨p, hp, rfl⟩
    · exact .inr ⟨p, hp, h⟩

theorem mem_streamActs : a ∈ streamActs n r ↔
    ∃ p, (p < n ∧ p ≠ r) ∧ (a = .put p ∨ a = .ready p ∨ a = .send p ∨ a = .recvDone p ∨ a = .sendDone p) := by
  rw [streamActs_eq, List.mem_append, List.mem_append, mem_streamPosts, List.mem_map, List.mem_map]
  simp only [mem_commPeers]
  constructor
  · rintro (⟨p, hp, h⟩ | ⟨p, hp, rfl⟩ | ⟨p, hp, rfl⟩)
    · exact ⟨p, hp, by tauto⟩
    · exact ⟨p, hp, by tauto⟩
    · exact ⟨p, hp, by tauto⟩
  · rintro ⟨p, hp, rfl | rfl | rfl | rfl | rfl⟩
    · exact .inl ⟨p, hp, by tauto⟩
    · exact .inl ⟨p, hp, by tauto⟩
    · exact .inl ⟨p, hp, by tauto⟩
    · exact .inr (.inl ⟨p, hp, rfl⟩)
    · exact .inr (.inr ⟨p, hp, rfl⟩)

theorem streamActs_nodup (n r : Nat) : (streamActs n r).Nodup := by
  have hpeers := commPeers_nodup n r
  have hposts : (streamPosts n r).Nodup := by
    refine List.nodup_append.mpr ⟨hpeers.map fun _ _ => StreamAct.put.inj, ?_, fun a ha b hb he => ?_⟩
    · exact pairs_nodup hpeers (fun _ _ => StreamAct.ready.inj) (fun _ _ => StreamAct.send.inj) (by simp)
    · obtain ⟨p, -, rfl⟩ := List.mem_map.mp ha
      rw [← he] at hb
      simp at hb
  rw [streamActs_eq]
  refine List.nodup_append.mpr ⟨hposts, List.nodup_append.mpr ⟨hpeers.map fun _ _ => StreamAct.recvDone.inj,
    hpeers.map fun _ _ => StreamAct.sendDone.inj, fun a ha b hb he => ?_⟩, fun a ha b hb he => ?_⟩
  · obtain ⟨p, -, rfl⟩ := List.mem_map.mp ha
    rw [← he] at hb
    simp at hb
  · obtain ⟨p, -, hp⟩ := mem_streamPosts.mp ha
    rw [← he] at hb
    rcases hp with rfl | rfl | rfl <;> simp at hb

/-- The waits for the completions come last. -/
theorem streamPosts_before_done (ha : a ∈ streamPosts n r) (hq : q < n ∧ q ≠ r) :
    [a, .recvDone q].Sublist (streamActs n r) ∧ [a, .sendDone q].Sublist (streamActs n r) := by
  rw [streamActs_eq]
  have hpeer := mem_commPeers.mpr hq
  exact ⟨before_append ha (List.mem_append_left _ (List.mem_map.mpr ⟨q, hpeer, rfl⟩)),
    before_append ha (List.mem_append_right _ (List.mem_map.mpr ⟨q, hpeer, rfl⟩))⟩

section Other
variable (hp : p < n ∧ p ≠ r)
include hp

theorem recvDone_before_sendDone (hq : q < n ∧ q ≠ r) :
    [StreamAct.recvDone p, .sendDone q].Sublist (streamActs n r) := by
  rw [streamActs_eq]
  refine (before_append ?_ ?_).trans (List.sublist_append_right ..)
  · exact List.mem_map.mpr ⟨p, mem_commPeers.mpr hp, rfl⟩
  · exact List.mem_map.mpr ⟨q, mem_commPeers.mpr hq, rfl⟩

theorem ready_before_send : [StreamAct.ready p, .send p].Sublist (streamActs n r) := by
  rw [streamActs_eq]
  exact ((sublist_flatMap (f := fun q => [StreamAct.ready q, .send q]) (mem_commPeers.mpr hp)).trans
    (List.sublist_append_right ..)).trans (List.sublist_append_left ..)

end Other

end Stream

end LibMp
