import LibMp.Calls

/- How `mp_init` connects the ranks of a job.

   Each rank makes a queue pair for each entry of its list `peers`, writes its
   address into the slot of that peer in `qpinfo_all`, takes part in
   `MPI_Alltoall`, and connects each queue pair to the address it then finds
   in the slot of the peer. Three numberings meet here: the place of a peer in
   the list (`clients`), its rank (`qpinfo_all`, `client_index`) and, on the
   other side, the place of the own rank in the list of the peer.

   The devices, the pool and the set up of IPC and of the padding of datagrams
   do not take part. A job is the family of the calls of all its ranks, with
   what the outside answers to each. -/
namespace LibMp

/-- `qpinfo_t`. -/
structure QpInfo where
  lid : Nat := 0
  qpn : Nat := 0
  psn : Nat := 0
  deriving DecidableEq, Repr

/-- `ibv_qp_state`, as far as it is used. -/
inductive QpState where
  | reset
  | init
  | rtr
  | rts
  deriving DecidableEq, Repr

/-- A queue pair with the attributes `ibv_modify_qp` has given it. -/
structure Qp where
  qpNum : Nat
  state : QpState := .reset
  destQpNum : Option Nat := none
  dlid : Option Nat := none
  rqPsn : Option Nat := none
  sqPsn : Option Nat := none
  deriving DecidableEq, Repr

/-- The fields of `client_t` that concern the connection; of the address handle
`ah` the destination. -/
structure Conn where
  mpiRank : Nat := 0
  qp : Option Qp := none
  ah : Option Nat := none
  qpn : Nat := 0
  deriving DecidableEq, Repr

/-- What one rank's `mp_init` fills in. -/
structure Boot where
  clientIndex : Nat → Int
  clients : Nat → Conn
  qpinfoAll : Nat → QpInfo

/-- One rank's call of `mp_init`: its arguments, its port, what stands in
`qpinfo_all` after `malloc`, and the answers of `gds_create_qp`,
`ibv_modify_qp` (0 on success) and `ibv_create_ah` for each client. -/
structure Launch where
  enableUd : Bool := false
  peers : List Nat
  lid : Nat
  junk : Nat → QpInfo := fun _ => {}
  createQp : Nat → Option Nat
  modifyQp : QpState → Nat → Int := fun _ _ => 0
  createAh : Nat → Bool := fun _ => true

/-- Why `mp_init` does not succeed. -/
inductive InitStop where
  /-- `return MP_FAILURE` -/
  | failure
  /-- `exit(EXIT_FAILURE)` -/
  | exitFailure
  deriving DecidableEq, Repr

abbrev IM := Prog Boot InitStop

def badIndex : Int := -1

/-- The tables as they are allocated; `memset` sets every byte of
`client_index` to that of `bad_index`, which is -1. -/
def Boot.init (l : Launch) : Boot := ⟨fun _ => badIndex, fun _ => {}, l.junk⟩

def setConn (i : Nat) (g : Conn → Conn) : IM Unit :=
  Prog.modify fun b => { b with clients := Function.update b.clients i (g (b.clients i)) }

/-- `for (i = 0; i < count; i++) { peer = peers[i]; ... }`. -/
def forPeers (body : Nat → Nat → IM Unit) : List Nat → Nat → IM Unit
  | [], _ => return ()
  | peer :: rest, i => do
    body i peer
    forPeers body rest (i + 1)

variable (l : Launch)

/-- The body of the first loop: a queue pair for the peer. -/
def createClient (i peer : Nat) : IM Unit := do
  Prog.modify fun b => { b with clientIndex := Function.update b.clientIndex peer i }
  setConn i fun c => { c with mpiRank := peer }
  match l.createQp i with
  | none => Prog.stop .failure
  | some qpNum =>
    setConn i fun c => { c with qp := some { qpNum } }
    Prog.require (l.modifyQp .init i = 0) .exitFailure
    setConn i fun c => { c with qp := c.qp.map fun q => { q with state := .init } }
    Prog.modify fun b => { b with qpinfoAll := Function.update b.qpinfoAll peer ⟨l.lid, qpNum, 0⟩ }

/-- The attributes of the move to RTR: the destination in RC mode. -/
def Qp.toRtr (info : QpInfo) (q : Qp) : Qp :=
  if l.enableUd then { q with state := .rtr }
  else { q with state := .rtr, destQpNum := some info.qpn, rqPsn := some info.psn, dlid := some info.lid }

/-- The body of the second loop. -/
def readyToReceive (i peer : Nat) : IM Unit := do
  let b ← Prog.get
  Prog.require (l.modifyQp .rtr i = 0) .failure
  setConn i fun c => { c with qp := c.qp.map (Qp.toRtr l (b.qpinfoAll peer)) }

/-- The body of the third loop; in UD mode the destination is kept in the client. -/
def readyToSend (i peer : Nat) : IM Unit := do
  let b ← Prog.get
  Prog.require (l.modifyQp .rts i = 0) .failure
  setConn i fun c => { c with qp := c.qp.map fun q => { q with state := .rts, sqPsn := some 0 } }
  if l.enableUd then
    Prog.require (l.createAh i) .failure
    setConn i fun c => { c with ah := some (b.qpinfoAll peer).lid, qpn := (b.qpinfoAll peer).qpn }

/-- `mp_init` up to the exchange. -/
def mpInitCreate : IM Unit := forPeers (createClient l) l.peers 0

/-- `mp_init` after the exchange. -/
def mpInitConnect : IM Unit := do
  forPeers (readyToReceive l) l.peers 0
  forPeers (readyToSend l) l.peers 0

/-! ## A job -/

/-- `MPI_Alltoall` in place: slot `i` of rank `j` gets what rank `i` had in slot `j`. -/
def alltoall (b : Nat → Boot) (j : Nat) : Boot := { b j with qpinfoAll := fun i => (b i).qpinfoAll j }

/-- The calls of all ranks: the peers of a rank are distinct ranks of the job
(itself allowed), and each is a peer of the other. -/
structure Job where
  size : Nat
  launch : Nat → Launch
  nodup : ∀ a < size, (launch a).peers.Nodup
  range : ∀ a < size, ∀ b ∈ (launch a).peers, b < size
  symm : ∀ a < size, ∀ b < size, b ∈ (launch a).peers ↔ a ∈ (launch b).peers

/-- `mp_init` succeeds on all ranks and leaves the tables `fin`. -/
def Job.Starts (job : Job) (fin : Nat → Boot) : Prop :=
  ∃ mid : Nat → Boot,
    (∀ a < job.size, mpInitCreate (job.launch a) (Boot.init (job.launch a)) = (.ok (), mid a)) ∧
    ∀ a < job.size, mpInitConnect (job.launch a) (alltoall mid a) = (.ok (), fin a)

/-- The address of a queue pair: the port, and the number on it. -/
abbrev Address := Nat × Nat

/-- No two queue pairs of the job have one address: numbers of queue pairs are
unique on a port, and `lid`s in a subnet. -/
def Job.AddressesUnique (job : Job) : Prop :=
  ∀ a < job.size, ∀ b < job.size, ∀ i < (job.launch a).peers.length, ∀ j < (job.launch b).peers.length, ∀ q,
    (job.launch a).lid = (job.launch b).lid → (job.launch a).createQp i = some q → (job.launch b).createQp j = some q →
    a = b ∧ i = j

/-- The client a call finds for a peer: none at `bad_index`. -/
def Boot.client (b : Boot) (peer : Nat) : Option Conn :=
  if b.clientIndex peer = badIndex then none else some (b.clients (b.clientIndex peer).toNat)

/-- The address of the queue pair that sends to and receives from `peer`. -/
def Boot.address (b : Boot) (peer : Nat) : Option Address :=
  (b.client peer).bind fun c => c.qp.map fun q => (l.lid, q.qpNum)

/-- Where a message to `peer` goes: in RC mode to the other end of its queue
pair, in UD mode where the work request says (`ah`, `remote_qpn`). -/
def Boot.destination (b : Boot) (peer : Nat) : Option Address :=
  (b.client peer).bind fun c =>
    if l.enableUd then c.ah.map fun lid => (lid, c.qpn)
    else c.qp.bind fun q => q.dlid.bind fun lid => q.destQpNum.map fun qpn => (lid, qpn)

/-! ## The loops -/

variable {l}

/-- What the first loop does to a client. -/
def Conn.created (peer q : Nat) (c : Conn) : Conn :=
  { c with mpiRank := peer, qp := some { qpNum := q, state := .init } }

/-- What the second loop does to it. -/
def Conn.toRtr (l : Launch) (info : QpInfo) (c : Conn) : Conn := { c with qp := c.qp.map (Qp.toRtr l info) }

/-- What the third loop does to it. -/
def Conn.toRts (l : Launch) (info : QpInfo) (c : Conn) : Conn :=
  let qp := c.qp.map fun q => { q with state := .rts, sqPsn := some 0 }
  if l.enableUd then { c with qp, ah := some info.lid, qpn := info.qpn } else { c with qp }

/-- A turn of the first loop that goes through. -/
theorem createClient_ok {i peer : Nat} {b b' : Boot} (h : createClient l i peer b = (.ok (), b')) :
    ∃ q, l.createQp i = some q ∧ b' =
      ⟨Function.update b.clientIndex peer i,
       Function.update b.clients i ((b.clients i).created peer q),
       Function.update b.qpinfoAll peer ⟨l.lid, q, 0⟩⟩ := by
  unfold createClient at h
  obtain ⟨_, b₁, h₁, h₂⟩ := Prog.bind_eq_ok h
  cases h₁
  obtain ⟨_, b₂, h₃, h₄⟩ := Prog.bind_eq_ok h₂
  cases h₃
  cases hq : l.createQp i with
  | none =>
    rw [hq] at h₄
    cases h₄
  | some q =>
    rw [hq] at h₄
    obtain ⟨_, b₃, h₅, h₆⟩ := Prog.bind_eq_ok h₄
    cases h₅
    obtain ⟨-, h₈⟩ := require_bind_ok h₆
    obtain ⟨_, b₅, h₉, h₁₀⟩ := Prog.bind_eq_ok h₈
    cases h₉
    cases h₁₀
    refine ⟨q, rfl, ?_⟩
    simp only [Function.update_self, Function.update_idem, Option.map_some, Conn.created]

theorem clientIndexFrom_of_get {peers : List Nat} (hnd : peers.Nodup) {i k peer : Nat}
    (h : peers[k]? = some peer) : clientIndexFrom peers i peer = some (i + k) := by
  induction peers generalizing i k with
  | nil => cases h
  | cons r rest ih =>
    obtain ⟨hr, hrest⟩ := List.nodup_cons.mp hnd
    unfold clientIndexFrom
    cases k with
    | zero =>
      obtain rfl : r = peer := by simpa using h
      have hnone : clientIndexFrom rest (i + 1) r = none := by
        cases hj : clientIndexFrom rest (i + 1) r with
        | none => rfl
        | some j =>
          obtain ⟨k', -, hk'⟩ := clientIndexFrom_eq hj
          exact absurd (List.mem_of_getElem? hk') hr
      rw [hnone]
      simp
    | succ k =>
      rw [ih hrest (by simpa using h)]
      simp only [Option.some.injEq]
      omega

theorem clientIndexFrom_of_not_mem {peers : List Nat} {i peer : Nat} (h : peer ∉ peers) :
    clientIndexFrom peers i peer = none := by
  cases hj : clientIndexFrom peers i peer with
  | none => rfl
  | some j =>
    obtain ⟨k, -, hk⟩ := clientIndexFrom_eq hj
    exact absurd (List.mem_of_getElem? hk) h

/-- The first loop, from its turn `i` on: each client gets its queue pair, and
the address of it stands in the slot of the peer. -/
theorem createClients_ok {rest : List Nat} (hnd : rest.Nodup) {i : Nat} {b b' : Boot}
    (h : forPeers (createClient l) rest i b = (.ok (), b')) :
    (∀ peer, b'.clientIndex peer =
      match clientIndexFrom rest i peer with
      | some j => (j : Int)
      | none => b.clientIndex peer) ∧
    (∀ k peer, rest[k]? = some peer → ∃ q, l.createQp (i + k) = some q ∧
      b'.clients (i + k) = (b.clients (i + k)).created peer q ∧
      b'.qpinfoAll peer = ⟨l.lid, q, 0⟩) ∧
    (∀ j < i, b'.clients j = b.clients j) ∧
    ∀ peer, peer ∉ rest → b'.qpinfoAll peer = b.qpinfoAll peer := by
  induction rest generalizing i b with
  | nil =>
    cases h
    exact ⟨fun _ => rfl, fun k peer hk => by simp at hk, fun _ _ => rfl, fun _ _ => rfl⟩
  | cons r rest ih =>
    obtain ⟨hr, hrest⟩ := List.nodup_cons.mp hnd
    rw [forPeers] at h
    obtain ⟨_, b₁, h₁, h₂⟩ := Prog.bind_eq_ok h
    obtain ⟨q, hq, hb₁⟩ := createClient_ok h₁
    obtain ⟨hidx, hcl, hbelow, hslot⟩ := ih hrest h₂
    have hat : b'.clients i = (b.clients i).created r q := by
      rw [hbelow i (by omega), hb₁]
      exact Function.update_self ..
    refine ⟨fun peer => ?_, fun k peer hk => ?_, fun j hj => ?_, fun peer hp => ?_⟩
    · rw [hidx peer, clientIndexFrom]
      -- a later turn writes the same entry only for the same peer
      cases clientIndexFrom rest (i + 1) peer with
      | some j => rfl
      | none =>
        by_cases hrp : r = peer
        · rw [hb₁, if_pos hrp, hrp]
          exact Function.update_self ..
        · rw [hb₁, if_neg hrp]
          exact Function.update_of_ne (Ne.symm hrp) ..
    · cases k with
      | zero =>
        obtain rfl : r = peer := by simpa using hk
        refine ⟨q, hq, hat, ?_⟩
        rw [hslot r hr, hb₁]
        exact Function.update_self ..
      | succ k =>
        obtain ⟨q', hq', hc', hs'⟩ := hcl k peer (by simpa using hk)
        have hne : i + 1 + k ≠ i := by omega
        rw [hb₁, show i + 1 + k = i + (k + 1) by omega] at hc'
        rw [show i + 1 + k = i + (k + 1) by omega] at hq' hne
        refine ⟨q', hq', ?_, hs'⟩
        rw [hc']
        exact congrArg _ (Function.update_of_ne hne ..)
    · have hne : j ≠ i := by omega
      rw [hbelow j (by omega), hb₁]
      exact Function.update_of_ne hne ..
    · have hne : peer ≠ r := fun he => hp (he ▸ List.mem_cons_self)
      rw [hslot peer (fun hm => hp (List.mem_cons_of_mem r hm)), hb₁]
      exact Function.update_of_ne hne ..

/-- A loop whose turn for a client only changes that client, by `g`. -/
theorem forPeers_clients {body : Nat → Nat → IM Unit} {g : QpInfo → Conn → Conn}
    (hbody : ∀ i peer b b', body i peer b = (.ok (), b') →
      b' = { b with clients := Function.update b.clients i (g (b.qpinfoAll peer) (b.clients i)) })
    {rest : List Nat} {i : Nat} {b b' : Boot} (h : forPeers body rest i b = (.ok (), b')) :
    b'.clientIndex = b.clientIndex ∧ b'.qpinfoAll = b.qpinfoAll ∧
    (∀ k peer, rest[k]? = some peer → b'.clients (i + k) = g (b.qpinfoAll peer) (b.clients (i + k))) ∧
    ∀ j < i, b'.clients j = b.clients j := by
  induction rest generalizing i b with
  | nil =>
    cases h
    exact ⟨rfl, rfl, fun k peer hk => by simp at hk, fun _ _ => rfl⟩
  | cons r rest ih =>
    rw [forPeers] at h
    obtain ⟨_, b₁, h₁, h₂⟩ := Prog.bind_eq_ok h
    have hb₁ := hbody i r b b₁ h₁
    obtain ⟨hidx, hslot, hcl, hbelow⟩ := ih h₂
    rw [hb₁] at hidx hslot
    refine ⟨hidx, hslot, fun k peer hk => ?_, fun j hj => ?_⟩
    · cases k with
      | zero =>
        obtain rfl : r = peer := by simpa using hk
        rw [Nat.add_zero, hbelow i (by omega), hb₁]
        exact Function.update_self ..
      | succ k =>
        have hc := hcl k peer (by simpa using hk)
        have hne : i + (k + 1) ≠ i := by omega
        rw [hb₁, show i + 1 + k = i + (k + 1) by omega] at hc
        rw [hc]
        exact congrArg _ (Function.update_of_ne hne ..)
    · have hne : j ≠ i := by omega
      rw [hbelow j (by omega), hb₁]
      exact Function.update_of_ne hne ..

theorem readyToReceive_ok {i peer : Nat} {b b' : Boot} (h : readyToReceive l i peer b = (.ok (), b')) :
    b' = { b with clients := Function.update b.clients i (Conn.toRtr l (b.qpinfoAll peer) (b.clients i)) } := by
  unfold readyToReceive at h
  obtain ⟨_, b₁, h₁, h₂⟩ := Prog.bind_eq_ok h
  cases h₁
  obtain ⟨-, h₄⟩ := require_bind_ok h₂
  cases h₄
  rfl

theorem readyToSend_ok {i peer : Nat} {b b' : Boot} (h : readyToSend l i peer b = (.ok (), b')) :
    b' = { b with clients := Function.update b.clients i (Conn.toRts l (b.qpinfoAll peer) (b.clients i)) } := by
  unfold readyToSend at h
  obtain ⟨_, b₁, h₁, h₂⟩ := Prog.bind_eq_ok h
  cases h₁
  obtain ⟨-, h₄⟩ := require_bind_ok h₂
  obtain ⟨_, b₃, h₅, h₆⟩ := Prog.bind_eq_ok h₄
  cases h₅
  unfold Conn.toRts
  split at h₆
  · rename_i hud
    obtain ⟨-, h₈⟩ := require_bind_ok h₆
    cases h₈
    simp only [Function.update_self, Function.update_idem, if_pos hud]
  · rename_i hud
    cases h₆
    simp only [if_neg hud]

/-! ## The connections of a job -/

section Starts
variable {job : Job} {fin : Nat → Boot}

/-- `client_index` after `mp_init` is what the calls of the rank work with
(`Config.clientIndex`). -/
theorem Job.Starts.clientIndex (h : job.Starts fin) {a : Nat} (ha : a < job.size) (peer : Nat) :
    (fin a).clientIndex peer =
      match clientIndexFrom (job.launch a).peers 0 peer with
      | some j => (j : Int)
      | none => badIndex := by
  obtain ⟨mid, hcreate, hconnect⟩ := h
  obtain ⟨_, b₁, h₁, h₂⟩ := Prog.bind_eq_ok (hconnect a ha)
  have hrts := (forPeers_clients (fun _ _ _ _ => readyToSend_ok) h₂).1
  have hrtr := (forPeers_clients (fun _ _ _ _ => readyToReceive_ok) h₁).1
  rw [hrts, hrtr]
  exact (createClients_ok (job.nodup a ha) (hcreate a ha)).1 peer

/-- Client `i` of rank `a`, for the peer `b`: its queue pair is set up with the
address of the one `b` has made for `a`. -/
theorem Job.Starts.client (h : job.Starts fin) {a b i : Nat} (ha : a < job.size)
    (hi : (job.launch a).peers[i]? = some b) :
    ∃ j q q', (job.launch b).peers[j]? = some a ∧ (job.launch a).createQp i = some q ∧
      (job.launch b).createQp j = some q' ∧
      (fin a).clients i = Conn.toRts (job.launch a) ⟨(job.launch b).lid, q', 0⟩
        (Conn.toRtr (job.launch a) ⟨(job.launch b).lid, q', 0⟩ (Conn.created b q {})) := by
  obtain ⟨mid, hcreate, hconnect⟩ := h
  have hmem : b ∈ (job.launch a).peers := List.mem_of_getElem? hi
  have hb : b < job.size := job.range a ha b hmem
  obtain ⟨j, hj⟩ := List.mem_iff_getElem?.mp ((job.symm a ha b hb).mp hmem)
  obtain ⟨q, hq, hca, -⟩ := (createClients_ok (job.nodup a ha) (hcreate a ha)).2.1 i b hi
  obtain ⟨q', hq', -, hslot⟩ := (createClients_ok (job.nodup b hb) (hcreate b hb)).2.1 j a hj
  obtain ⟨_, b₁, h₁, h₂⟩ := Prog.bind_eq_ok (hconnect a ha)
  obtain ⟨-, hslots, hrtr, -⟩ := forPeers_clients (fun _ _ _ _ => readyToReceive_ok) h₁
  obtain ⟨-, -, hrts, -⟩ := forPeers_clients (fun _ _ _ _ => readyToSend_ok) h₂
  rw [Nat.zero_add] at hq hq' hca
  -- after the exchange, the slot of `b` at `a` is the slot of `a` at `b`
  have hx : b₁.qpinfoAll b = ⟨(job.launch b).lid, q', 0⟩ := by
    rw [hslots]
    exact hslot
  have hm : (alltoall mid a).clients i = Conn.created b q {} := hca
  have hr := hrtr i b hi
  have hs := hrts i b hi
  rw [Nat.zero_add] at hr hs
  refine ⟨j, q, q', hj, hq, hq', ?_⟩
  rw [hs, hr, hx, ← hslots, hx, hm]

/-- The client a rank finds for a peer. -/
theorem Job.Starts.clientOf (h : job.Starts fin) {a b i : Nat} (ha : a < job.size)
    (hi : (job.launch a).peers[i]? = some b) : (fin a).client b = some ((fin a).clients i) := by
  have hidx := h.clientIndex ha b
  rw [clientIndexFrom_of_get (job.nodup a ha) hi] at hidx
  unfold Boot.client
  rw [hidx, if_neg (by simp only [badIndex]; omega)]
  simp

theorem Job.Starts.address (h : job.Starts fin) {a b i q : Nat} (ha : a < job.size)
    (hi : (job.launch a).peers[i]? = some b) (hq : (job.launch a).createQp i = some q) :
    Boot.address (job.launch a) (fin a) b = some ((job.launch a).lid, q) := by
  obtain ⟨j, q₁, q', -, hq₁, -, hc⟩ := h.client ha hi
  rw [hq] at hq₁
  cases hq₁
  unfold Boot.address
  rw [h.clientOf ha hi, hc]
  cases hud : (job.launch a).enableUd <;> simp [Conn.toRts, Conn.toRtr, Conn.created, Qp.toRtr, hud]

theorem Job.Starts.destination (h : job.Starts fin) {a b i : Nat} (ha : a < job.size)
    (hi : (job.launch a).peers[i]? = some b) :
    ∃ j q', (job.launch b).peers[j]? = some a ∧ (job.launch b).createQp j = some q' ∧
      Boot.destination (job.launch a) (fin a) b = some ((job.launch b).lid, q') := by
  obtain ⟨j, q, q', hj, -, hq', hc⟩ := h.client ha hi
  refine ⟨j, q', hj, hq', ?_⟩
  unfold Boot.destination
  rw [h.clientOf ha hi, hc]
  cases hud : (job.launch a).enableUd <;> simp [Conn.toRts, Conn.toRtr, Conn.created, Qp.toRtr, hud]

/-- After `mp_init` on all ranks of a job: on each rank `client_index` and
`mpi_rank` are inverse to each other on its peers, and `client_index` is -1 on
all other ranks; what a rank sends to a peer goes to the very queue pair the
peer has made for it, in RC and in UD mode; and so, where no two queue pairs
share an address, the only receives that match it are those the peer has posted
for it. -/
theorem connections_agree (h : job.Starts fin) :
    (∀ a < job.size,
      (∀ b ∈ (job.launch a).peers, ∃ i, i < (job.launch a).peers.length ∧ (fin a).clientIndex b = (i : Int) ∧
        ((fin a).clients i).mpiRank = b) ∧
      (∀ i < (job.launch a).peers.length, (fin a).clientIndex ((fin a).clients i).mpiRank = (i : Int)) ∧
      ∀ b, b ∉ (job.launch a).peers → (fin a).clientIndex b = -1) ∧
    (∀ a < job.size, ∀ b ∈ (job.launch a).peers, ∃ j q, (job.launch b).peers[j]? = some a ∧
      (job.launch b).createQp j = some q ∧ Boot.address (job.launch b) (fin b) a = some ((job.launch b).lid, q) ∧
      Boot.destination (job.launch a) (fin a) b = some ((job.launch b).lid, q)) ∧
    (job.AddressesUnique → ∀ a < job.size, ∀ b ∈ (job.launch a).peers, ∀ c < job.size, ∀ d ∈ (job.launch c).peers,
      Boot.destination (job.launch a) (fin a) b = Boot.address (job.launch c) (fin c) d → c = b ∧ d = a) := by
  have hrank : ∀ a < job.size, ∀ i b : Nat, (job.launch a).peers[i]? = some b →
      (fin a).clientIndex b = (i : Int) ∧ ((fin a).clients i).mpiRank = b := by
    intro a ha i b hi
    have hidx := h.clientIndex ha b
    rw [clientIndexFrom_of_get (job.nodup a ha) hi] at hidx
    obtain ⟨j, q, q', -, -, -, hc⟩ := h.client ha hi
    refine ⟨by simpa using hidx, ?_⟩
    rw [hc]
    unfold Conn.toRts
    split <;> rfl
  refine ⟨fun a ha => ⟨fun b hb => ?_, fun i hi => ?_, fun b hb => ?_⟩, fun a ha b hb => ?_, ?_⟩
  · obtain ⟨i, hlt, hi⟩ := List.mem_iff_getElem.mp hb
    obtain ⟨hidx, hr⟩ := hrank a ha i b (List.getElem?_eq_some_iff.mpr ⟨hlt, hi⟩)
    exact ⟨i, hlt, hidx, hr⟩
  · obtain ⟨hidx, hr⟩ := hrank a ha i _ (List.getElem?_eq_getElem hi)
    rw [hr]
    exact hidx
  · have hidx := h.clientIndex ha b
    rw [clientIndexFrom_of_not_mem hb] at hidx
    exact hidx
  · obtain ⟨i, hi⟩ := List.mem_iff_getElem?.mp hb
    obtain ⟨j, q, hj, hq, hdest⟩ := h.destination ha hi
    exact ⟨j, q, hj, hq, h.address (job.range a ha b hb) hj hq, hdest⟩
  · -- the address fixes the receiver and its queue pair, and that the peer
    intro huniq a ha b hb c hc d hd hmatch
    obtain ⟨i, hi⟩ := List.mem_iff_getElem?.mp hb
    obtain ⟨k, hk⟩ := List.mem_iff_getElem?.mp hd
    obtain ⟨j, q, hj, hq, hdest⟩ := h.destination ha hi
    obtain ⟨k', q₂, q₃, -, hq₂, -, -⟩ := h.client hc hk
    rw [hdest, h.address hc hk hq₂] at hmatch
    obtain ⟨hlid, rfl⟩ := Prod.mk.inj (Option.some.inj hmatch)
    obtain ⟨rfl, rfl⟩ := huniq b (job.range a ha b hb) c hc j (List.getElem?_eq_some_iff.mp hj).1 k
      (List.getElem?_eq_some_iff.mp hk).1 q hlid hq hq₂
    rw [hj] at hk
    exact ⟨rfl, (Option.some.inj hk).symm⟩

/-- Three ranks on two ports: 0 is a peer of itself and of 2, and 1 has no peers. -/
def threeRanks : Job where
  size := 3
  launch a :=
    match a with
    | 0 => { peers := [2, 0], lid := 7, createQp := fun i => some (20 + i) }
    | 1 => { peers := [], lid := 7, createQp := fun i => some (30 + i) }
    | _ => { peers := [0], lid := 8, createQp := fun i => some (20 + i), enableUd := true }
  nodup := by decide
  range := by decide
  symm := by decide

/-- The queue pair of rank 0 for rank 2 is connected to the one of rank 2 for it. -/
theorem connections_agree_of_three :
    ∃ fin, threeRanks.Starts fin ∧ threeRanks.AddressesUnique ∧
      (fin 0).clientIndex 2 = 0 ∧ (fin 0).clientIndex 0 = 1 ∧ (fin 0).clientIndex 1 = -1 ∧
      ∀ c < 3, ∀ d ∈ (threeRanks.launch c).peers,
        Boot.destination (threeRanks.launch 0) (fin 0) 2 = Boot.address (threeRanks.launch c) (fin c) d →
          c = 2 ∧ d = 0 := by
  have hstarts : threeRanks.Starts fun a => (mpInitConnect (threeRanks.launch a)
      (alltoall (fun a => (mpInitCreate (threeRanks.launch a) (Boot.init (threeRanks.launch a))).2) a)).2 := by
    refine ⟨fun a => (mpInitCreate (threeRanks.launch a) (Boot.init (threeRanks.launch a))).2, ?_, ?_⟩
    · intro a ha
      match a, ha with
      | 0, _ | 1, _ | 2, _ => rfl
    · intro a ha
      match a, ha with
      | 0, _ | 1, _ | 2, _ => rfl
  have huniq : threeRanks.AddressesUnique := by
    intro a ha b hb i hi j hj q hlid hqa hqb
    match a, ha, b, hb with
    | 0, _, 0, _ | 1, _, 1, _ | 2, _, 2, _ =>
      refine ⟨rfl, ?_⟩
      have := Option.some.inj (hqa.trans hqb.symm)
      omega
    | 0, _, 1, _ | 1, _, 2, _ | 2, _, 1, _ | 1, _, 0, _ => simp [threeRanks] at hi hj
    | 0, _, 2, _ | 2, _, 0, _ => cases hlid
  obtain ⟨-, -, honly⟩ := connections_agree hstarts
  exact ⟨_, hstarts, huniq, by decide, by decide, by decide, honly huniq 0 (by decide) 2 (by decide)⟩

end Starts

end LibMp
