import LibMp.Comm
import LibMp.Init
import LibMp.Returns
import LibMp.Serial

/- The ready protocol of COMM between the ranks of a job.

   A rank tells another that it is ready by a put of four bytes: the value of
   its counter for that rank, into the slot of its own rank in the table of the
   other. The other waits for the values 1, 2, 3, ... in turn, on the CPU, on a
   stream or in a kernel. A net is the tables of all ranks, the puts in flight
   and the waits that streams and kernels have not passed. Its events are the
   calls of the ranks, the arrival of a put (any of those in flight) and the
   release of a wait (any of those whose condition holds): every interleaving
   is a run. A stream compares on the circle of 32-bit words, and what a kernel
   compares is a parameter.

   Puts and waits carry a number that the source does not have: the count of
   calls they are. The words of the tables are these numbers modulo 2^32. -/
namespace LibMp

/-! ## The job -/

/-- The peers of `comm_init`: all ranks but the own one. -/
def commPeers (n rank : Nat) : List Nat := (List.range n).filter (· ≠ rank)

/-- `table_size`: four bytes for each rank, at least a page. -/
def tableSize (n : Nat) : Nat := max (4 * n) 4096

/-- A `size_t` that goes through an `int` on its way to a `uint64_t`. -/
def throughInt (n : Nat) : Nat := if n % 2 ^ 32 < 2 ^ 31 then n % 2 ^ 32 else n % 2 ^ 32 + (2 ^ 64 - 2 ^ 32)

/-- `mp_window_create`, as a rank with the clients of `cfg` sees it: what the
ranks have given, by rank, is stored by client. -/
def mpWindowCreate (cfg : Config) (addr rkey size : Nat → Nat) : Window :=
  ⟨fun i => addr (cfg.mpiRank i), fun i => rkey (cfg.mpiRank i), fun i => throughInt (size (cfg.mpiRank i))⟩

/-- The ranks of a job that uses COMM: the settings of libmp, and where
`ready_table` and `remote_ready_values` stand on each. -/
structure CommJob where
  size : Nat
  size_lt : size < maxRanks
  cfg : Nat → Config
  tableAt : Nat → Nat
  sentAt : Nat → Nat
  rkey : Nat → Nat
  reg : Nat → Reg
  fits : ∀ r, tableAt r + tableSize size ≤ 2 ^ 64

/-- What `comm_init` fixes on rank `r`. -/
def CommJob.comm (job : CommJob) (r : Nat) : CommConfig :=
  let mp := { job.cfg r with peers := commPeers job.size r }
  { mp
    commSize := job.size
    commRank := r
    readyTableWin := mpWindowCreate mp job.tableAt job.rkey fun _ => tableSize job.size
    remoteReadyValues := job.sentAt r
    remoteReadyValuesReg := job.reg r
    readyTable := job.tableAt r }

/-! ## The net -/

/-- A put in flight: its payload was taken at the call (`MP_PUT_INLINE`). -/
structure Put where
  src : Nat
  dst : Nat
  addr : Nat
  value : Nat
  no : Nat
  deriving DecidableEq, Repr

/-- Who waits, when it is not the CPU. -/
inductive Waiter where
  | stream (st : Stream)
  | kernel
  deriving DecidableEq, Repr

/-- A wait of `rank` for a value of `ready_table[slot]`. -/
structure PendingWait where
  rank : Nat
  slot : Nat
  value : Nat
  waiter : Waiter
  no : Nat
  deriving DecidableEq, Repr

inductive ReadyEv where
  /-- `src` has called `comm_send_ready` or `comm_send_ready_on_stream` for `dst` -/
  | sent (src dst : Nat)
  /-- a put has been written to the table of `dst` -/
  | delivered (src dst no : Nat)
  /-- a wait of `rank` on `slot` has taken its value; a test only if it succeeds -/
  | took (rank slot : Nat)
  /-- the wait of this number is over -/
  | released (rank slot no : Nat)
  deriving DecidableEq, Repr

structure Net where
  tables : Nat → ReadyTables
  flying : List Put
  waits : List PendingWait
  log : List ReadyEv

/-- After `comm_init` on all ranks. -/
def Net.init : Net := ⟨fun _ => .init, [], [], []⟩

/-- How often `s` has told `r`. -/
def sentCount (log : List ReadyEv) (s r : Nat) : Nat := log.count (.sent s r)

/-- How many values of `s` the successful waits and tests of `r` have taken. -/
def tookCount (log : List ReadyEv) (r s : Nat) : Nat := log.count (.took r s)

/-- The number of the put from `s` that was last written to the table of `r`:
the count the word in the table stands for. -/
def arrivedNo (log : List ReadyEv) (r s : Nat) : Nat :=
  (log.filterMap fun
    | .delivered src dst no => if src = s ∧ dst = r then some no else none
    | _ => none).getLastD 0

/-- A word written to memory, as the table at `base` sees it. -/
def ReadyTables.store (t : ReadyTables) (base addr v : Nat) : ReadyTables :=
  { t with readyTable := fun i => if base + 4 * i = addr then v else t.readyTable i }

/-- GEQ of a stream, on words of 32 bits: `(int32_t)(word - value) >= 0`. -/
def streamGeq (word value : Nat) : Bool := serialGe (2 ^ 32) word value

namespace Net

def setTables (n : Net) (r : Nat) (g : ReadyTables → ReadyTables) : Net :=
  { n with tables := Function.update n.tables r (g (n.tables r)) }

/-- A successful wait or test takes the next value. -/
def take (n : Net) (r s : Nat) : Net :=
  { n.setTables r fun t => t.nextExpected s with log := n.log ++ [.took r s] }

/-- The number of the next value. -/
def nextNo (n : Net) (r s : Nat) : Nat := tookCount n.log r s + 1

/-- A wait that is over when the call returns. -/
def takeNow (n : Net) (r s : Nat) : Net :=
  { n.take r s with log := (n.take r s).log ++ [.released r s (n.nextNo r s)] }

/-- A wait that a stream or a kernel makes later. -/
def takeLater (n : Net) (r s : Nat) (waiter : Waiter) : Net :=
  { n.take r s with waits := n.waits ++ [⟨r, s, (n.tables r).readyValues s, waiter, n.nextNo r s⟩] }

/-- `s` issues a put for `r`. -/
def issue (n : Net) (s r : Nat) (p : Put) : Net :=
  { n.setTables s fun t => t.nextSent r with flying := n.flying ++ [p], log := n.log ++ [.sent s r] }

/-- Put `i` arrives. -/
def deliver (job : CommJob) (n : Net) (i : Nat) (p : Put) : Net :=
  { n.setTables p.dst fun t => t.store (job.tableAt p.dst) p.addr p.value with
    flying := n.flying.eraseIdx i, log := n.log ++ [.delivered p.src p.dst p.no] }

/-- Wait `i` is over. -/
def release (n : Net) (i : Nat) (w : PendingWait) : Net :=
  { n with waits := n.waits.eraseIdx i, log := n.log ++ [.released w.rank w.slot w.no] }

end Net

/-- The put of `comm_send_ready` on rank `s`, for rank `r`: its address as in
`rdmaDest`, its payload the word at `src` of `remote_ready_values`. It arrives
at the other end of the queue pair of its client. -/
def CommJob.put (job : CommJob) (t : ReadyTables) (s r no : Nat) : Option Put :=
  readyPut (job.comm s) r fun src _ _ peer displ win =>
    match (job.comm s).mp.clientIndex peer with
    | none => none
    | some c =>
      if displ < win.rsize c then
        some ⟨s, (job.comm s).mp.mpiRank c, (win.basePtr c + displ) % 2 ^ 64,
          t.remoteReadyValues ((src - job.sentAt s) / 4), no⟩
      else none

inductive NetEvent where
  | sendReady (s r : Nat)
  | sendReadyOnStream (s r : Nat) (st : Stream)
  | deliver (i : Nat)
  | waitReady (r s : Nat)
  | testReady (r s : Nat)
  | waitReadyOnStream (r s : Nat) (st : Stream)
  | prepareWaitReady (r s : Nat)
  | release (i : Nat)
  deriving DecidableEq, Repr

section
variable (job : CommJob) (kernel : Nat → Nat → Bool)

/-- When a wait on a word is over; `kernel` is the comparison the kernel makes. -/
def Waiter.passes (word value : Nat) : Waiter → Bool
  | .stream _ => streamGeq word value
  | .kernel => kernel word value

/-- Both calls that tell a rank. In UD mode there are no puts. -/
def Net.sendReady (s r : Nat) (n : Net) : Option Net :=
  if s < job.size ∧ r < job.size ∧ (job.comm s).mp.enableUd = false then
    (job.put (n.tables s) s r (sentCount n.log s r + 1)).map (n.issue s r)
  else none

/-- What an event does; none if it cannot happen. The wait on the CPU is the
turn of its loop in which it returns. -/
def Net.step (n : Net) : NetEvent → Option Net
  | .sendReady s r => n.sendReady job s r
  | .sendReadyOnStream s r _ => n.sendReady job s r
  | .deliver i => (n.flying[i]?).map (n.deliver job i)
  | .waitReady r s =>
    if r < job.size ∧ s < job.size ∧ (n.tables r).notReady s = false then some (n.takeNow r s) else none
  | .testReady r s =>
    if r < job.size ∧ s < job.size then
      if (n.tables r).notReady s then some n else some (n.takeNow r s)
    else none
  | .waitReadyOnStream r s st => if r < job.size ∧ s < job.size then some (n.takeLater r s (.stream st)) else none
  | .prepareWaitReady r s => if r < job.size ∧ s < job.size then some (n.takeLater r s .kernel) else none
  | .release i =>
    match n.waits[i]? with
    | none => none
    | some w => if w.waiter.passes kernel ((n.tables w.rank).readyTable w.slot) w.value then some (n.release i w)
        else none

/-- The nets a run can reach from `n`. -/
def NetMoves : Net → Net → Prop := Moves fun n n' => ∃ ev, n.step job kernel ev = some n'

end

/-! ## What an event does -/

variable {job : CommJob} {kernel : Nat → Nat → Bool} {n n' : Net}

theorem mem_commPeers {m s r : Nat} : r ∈ commPeers m s ↔ r < m ∧ r ≠ s := by
  simp [commPeers]

/-- The put of a rank for another goes to the slot of its own rank there, with
its counter for that rank. -/
theorem put_eq {t : ReadyTables} {s r no : Nat} {p : Put} (hs : s < job.size) (h : job.put t s r no = some p) :
    r < job.size ∧ r ≠ s ∧ p = ⟨s, r, job.tableAt r + 4 * s, t.remoteReadyValues r, no⟩ := by
  unfold CommJob.put readyPut at h
  dsimp only at h
  cases hc : (job.comm s).mp.clientIndex r with
  | none =>
    rw [hc] at h
    cases h
  | some c =>
    rw [hc] at h
    have hrank : (job.comm s).mp.mpiRank c = r := Config.mpiRank_eq hc
    have hmem : r ∈ commPeers job.size s := by
      obtain ⟨k, -, hk⟩ := clientIndexFrom_eq hc
      exact List.mem_of_getElem? hk
    have hbase : (job.comm s).readyTableWin.basePtr c = job.tableAt r := congrArg job.tableAt hrank
    have hfit : job.tableAt r + 4 * s < 2 ^ 64 := by
      have := job.fits r
      unfold tableSize at this
      omega
    dsimp only at h
    split at h
    · obtain ⟨hlt, hne⟩ := mem_commPeers.mp hmem
      refine ⟨hlt, hne, ?_⟩
      have hdispl : (job.comm s).commRank * 4 = 4 * s := Nat.mul_comm s 4
      have hsrc : ((job.comm s).remoteReadyValues + 4 * r - job.sentAt s) / 4 = r := by
        show (job.sentAt s + 4 * r - job.sentAt s) / 4 = r
        omega
      rw [hrank, hbase, hdispl, hsrc, Nat.mod_eq_of_lt hfit] at h
      exact (Option.some.inj h).symm
    · cases h

/-- The events by what they change. -/
inductive Happens (job : CommJob) (kernel : Nat → Nat → Bool) (n : Net) : NetEvent → Net → Prop
  | send {ev : NetEvent} {s r : Nat} {p : Put} (hev : ev = .sendReady s r ∨ ∃ st, ev = .sendReadyOnStream s r st)
      (hs : s < job.size) (hp : job.put (n.tables s) s r (sentCount n.log s r + 1) = some p) :
      Happens job kernel n ev (n.issue s r p)
  | deliver {i : Nat} {p : Put} (hp : n.flying[i]? = some p) : Happens job kernel n (.deliver i) (n.deliver job i p)
  | now {ev : NetEvent} {r s : Nat} (hev : ev = .waitReady r s ∨ ev = .testReady r s)
      (hready : (n.tables r).notReady s = false) : Happens job kernel n ev (n.takeNow r s)
  | notYet {r s : Nat} (hready : (n.tables r).notReady s = true) : Happens job kernel n (.testReady r s) n
  | later {ev : NetEvent} {r s : Nat} {waiter : Waiter}
      (hev : (∃ st, ev = .waitReadyOnStream r s st) ∨ ev = .prepareWaitReady r s) :
      Happens job kernel n ev (n.takeLater r s waiter)
  | release {i : Nat} {w : PendingWait} (hw : n.waits[i]? = some w)
      (hpass : w.waiter.passes kernel ((n.tables w.rank).readyTable w.slot) w.value = true) :
      Happens job kernel n (.release i) (n.release i w)

theorem happens_of_send {ev : NetEvent} {s r : Nat} (hev : ev = .sendReady s r ∨ ∃ st, ev = .sendReadyOnStream s r st)
    (h : n.sendReady job s r = some n') : Happens job kernel n ev n' := by
  unfold Net.sendReady at h
  split at h
  · rename_i hs
    obtain ⟨p, hp, rfl⟩ := Option.map_eq_some_iff.mp h
    exact .send hev hs.1 hp
  · cases h

theorem happens_of_step {ev : NetEvent} (h : n.step job kernel ev = some n') : Happens job kernel n ev n' := by
  cases ev with
  | sendReady s r => exact happens_of_send (.inl rfl) h
  | sendReadyOnStream s r st => exact happens_of_send (.inr ⟨st, rfl⟩) h
  | deliver i =>
    obtain ⟨p, hp, rfl⟩ := Option.map_eq_some_iff.mp h
    exact .deliver hp
  | waitReady r s =>
    rw [Net.step] at h
    split at h
    · rename_i hr
      cases h
      exact .now (.inl rfl) hr.2.2
    · cases h
  | testReady r s =>
    rw [Net.step] at h
    split at h
    · split at h
      · rename_i hr
        cases h
        exact .notYet hr
      · rename_i hr
        cases h
        exact .now (.inr rfl) (by simpa using hr)
    · cases h
  | waitReadyOnStream r s st =>
    rw [Net.step] at h
    split at h
    · cases h
      exact .later (.inl ⟨st, rfl⟩)
    · cases h
  | prepareWaitReady r s =>
    rw [Net.step] at h
    split at h
    · cases h
      exact .later (.inr rfl)
    · cases h
  | release i =>
    rw [Net.step] at h
    split at h
    · cases h
    · rename_i w hw
      split at h
      · rename_i hp
        cases h
        exact .release hw hp
      · cases h

/-! ## The counters -/

@[simp] theorem sentCount_append (l l' : List ReadyEv) (s r : Nat) :
    sentCount (l ++ l') s r = sentCount l s r + sentCount l' s r := List.count_append

@[simp] theorem tookCount_append (l l' : List ReadyEv) (r s : Nat) :
    tookCount (l ++ l') r s = tookCount l r s + tookCount l' r s := List.count_append

theorem sentCount_sent (s r s' r' : Nat) : sentCount [.sent s r] s' r' = if s' = s ∧ r' = r then 1 else 0 := by
  rw [sentCount, List.count_singleton]
  simp [@eq_comm Nat s, @eq_comm Nat r]

theorem tookCount_took (r s r' s' : Nat) : tookCount [.took r s] r' s' = if r' = r ∧ s' = s then 1 else 0 := by
  rw [tookCount, List.count_singleton]
  simp [@eq_comm Nat r, @eq_comm Nat s]

@[simp] theorem sentCount_delivered (a b k s r : Nat) : sentCount [.delivered a b k] s r = 0 := by simp [sentCount]
@[simp] theorem sentCount_took (a b s r : Nat) : sentCount [.took a b] s r = 0 := by simp [sentCount]
@[simp] theorem sentCount_released (a b k s r : Nat) : sentCount [.released a b k] s r = 0 := by simp [sentCount]
@[simp] theorem tookCount_delivered (a b k r s : Nat) : tookCount [.delivered a b k] r s = 0 := by simp [tookCount]
@[simp] theorem tookCount_sent (a b r s : Nat) : tookCount [.sent a b] r s = 0 := by simp [tookCount]
@[simp] theorem tookCount_released (a b k r s : Nat) : tookCount [.released a b k] r s = 0 := by simp [tookCount]

/-- Only a delivery from `s` to `r` changes the number the word stands for. -/
theorem arrivedNo_append (l : List ReadyEv) (e : ReadyEv) (r s : Nat) :
    arrivedNo (l ++ [e]) r s =
      match e with
      | .delivered src dst no => if src = s ∧ dst = r then no else arrivedNo l r s
      | _ => arrivedNo l r s := by
  unfold arrivedNo
  rw [List.filterMap_append]
  cases e with
  | delivered src dst no =>
    by_cases h : src = s ∧ dst = r
    · simp [h]
    · simp [h]
  | _ => simp

/-- A table changed at one place. -/
theorem update_map_apply {β : Type} (t : Nat → β) (r : Nat) (g : β → β) (q : Nat) :
    Function.update t r (g (t r)) q = if q = r then g (t q) else t q := by
  rw [Function.update_apply]
  split
  · rename_i h
    rw [h]
  · rfl

theorem setTables_tables (n : Net) (r : Nat) (g : ReadyTables → ReadyTables) (q : Nat) :
    (n.setTables r g).tables q = if q = r then g (n.tables q) else n.tables q := update_map_apply n.tables r g q

theorem issue_tables (n : Net) (s r : Nat) (p : Put) (q : Nat) :
    (n.issue s r p).tables q = if q = s then (n.tables q).nextSent r else n.tables q :=
  setTables_tables n s (fun t => t.nextSent r) q

theorem deliver_tables (n : Net) (i : Nat) (p : Put) (q : Nat) : (n.deliver job i p).tables q =
    if q = p.dst then (n.tables q).store (job.tableAt p.dst) p.addr p.value else n.tables q :=
  setTables_tables n p.dst (fun t => t.store (job.tableAt p.dst) p.addr p.value) q

theorem take_tables (n : Net) (r s q : Nat) :
    (n.take r s).tables q = if q = r then (n.tables q).nextExpected s else n.tables q :=
  setTables_tables n r (fun t => t.nextExpected s) q

theorem nextSent_remote (t : ReadyTables) (r q : Nat) : (t.nextSent r).remoteReadyValues q =
    if q = r then (t.remoteReadyValues q + 1) % 2 ^ 32 else t.remoteReadyValues q :=
  update_map_apply t.remoteReadyValues r (fun v => (v + 1) % 2 ^ 32) q

theorem nextExpected_values (t : ReadyTables) (s q : Nat) : (t.nextExpected s).readyValues q =
    if q = s then (t.readyValues q + 1) % 2 ^ 32 else t.readyValues q :=
  update_map_apply t.readyValues s (fun v => (v + 1) % 2 ^ 32) q

/-- Every word of the protocol is a count modulo 2^32: the counters of the
calls, the payloads and the waits; and no put in flight and no word of a table
is ahead of the calls. -/
structure ReadyInv (job : CommJob) (n : Net) : Prop where
  sent : ∀ s r, (n.tables s).remoteReadyValues r = (1 + sentCount n.log s r) % 2 ^ 32
  took : ∀ r s, (n.tables r).readyValues s = (1 + tookCount n.log r s) % 2 ^ 32
  flying : ∀ p ∈ n.flying, p.src ≠ p.dst ∧ p.addr = job.tableAt p.dst + 4 * p.src ∧
    p.no ≤ sentCount n.log p.src p.dst ∧ p.value = p.no % 2 ^ 32
  table : ∀ r s, arrivedNo n.log r s ≤ sentCount n.log s r ∧
    (n.tables r).readyTable s = arrivedNo n.log r s % 2 ^ 32
  waits : ∀ w ∈ n.waits, w.value = w.no % 2 ^ 32

theorem readyInv_init : ReadyInv job Net.init where
  sent _ _ := rfl
  took _ _ := rfl
  flying _ hp := by cases hp
  table _ _ := ⟨Nat.zero_le _, rfl⟩
  waits _ hw := by cases hw

theorem ReadyInv.issue (h : ReadyInv job n) {s r : Nat} {p : Put} (hs : s < job.size)
    (hp : job.put (n.tables s) s r (sentCount n.log s r + 1) = some p) : ReadyInv job (n.issue s r p) := by
  obtain ⟨-, hne, hp⟩ := put_eq hs hp
  constructor
  case sent =>
    intro a b
    rw [issue_tables]
    have hcount : sentCount (n.issue s r p).log a b = sentCount n.log a b + if a = s ∧ b = r then 1 else 0 := by
      rw [← sentCount_sent, ← sentCount_append]
      rfl
    rw [hcount]
    have hold := h.sent a b
    by_cases ha : a = s
    · rw [if_pos ha, nextSent_remote]
      by_cases hb : b = r
      · rw [if_pos hb, if_pos ⟨ha, hb⟩, hold]
        omega
      · rw [if_neg hb, if_neg (fun hh => hb hh.2)]
        exact hold
    · rw [if_neg ha, if_neg (fun hh => ha hh.1)]
      exact hold
  case took =>
    intro a b
    have hsame : ((n.issue s r p).tables a).readyValues b = (n.tables a).readyValues b := by
      rw [issue_tables]
      split <;> rfl
    rw [hsame, h.took a b]
    simp [Net.issue]
  case flying =>
    intro q hq
    have hmono : ∀ a b, sentCount n.log a b ≤ sentCount (n.issue s r p).log a b := by
      intro a b
      simp [Net.issue]
    rcases List.mem_append.mp hq with hq | hq
    · obtain ⟨h₁, h₂, h₃, h₄⟩ := h.flying q hq
      exact ⟨h₁, h₂, h₃.trans (hmono _ _), h₄⟩
    · rw [List.mem_singleton.mp hq, hp]
      refine ⟨Ne.symm hne, rfl, ?_, ?_⟩
      · show sentCount n.log s r + 1 ≤ sentCount (n.log ++ [.sent s r]) s r
        rw [sentCount_append, sentCount_sent, if_pos ⟨rfl, rfl⟩]
      · show (n.tables s).remoteReadyValues r = _
        rw [h.sent s r, Nat.add_comm]
  case table =>
    intro a b
    obtain ⟨hle, hw⟩ := h.table a b
    have hsame : ((n.issue s r p).tables a).readyTable b = (n.tables a).readyTable b := by
      rw [issue_tables]
      split <;> rfl
    rw [hsame, show (n.issue s r p).log = n.log ++ [.sent s r] from rfl, arrivedNo_append, sentCount_append]
    exact ⟨Nat.le_add_right_of_le hle, hw⟩
  case waits => exact h.waits

/-- Only the put of `s` for `r` reaches the slot of `s` at `r`. -/
theorem ReadyInv.store (h : ReadyInv job n) {i : Nat} {p : Put} (hp : n.flying[i]? = some p) (r s : Nat) :
    ((n.deliver job i p).tables r).readyTable s =
      if p.src = s ∧ p.dst = r then p.value else (n.tables r).readyTable s := by
  obtain ⟨-, haddr, -, -⟩ := h.flying p (List.mem_of_getElem? hp)
  rw [deliver_tables]
  by_cases hr : r = p.dst
  · rw [if_pos hr]
    show (if job.tableAt p.dst + 4 * s = p.addr then p.value else (n.tables r).readyTable s) = _
    have hiff : job.tableAt p.dst + 4 * s = p.addr ↔ p.src = s ∧ p.dst = r := by
      rw [haddr]
      constructor
      · intro he
        exact ⟨by omega, hr.symm⟩
      · intro he
        rw [he.1]
    simp only [hiff]
  · rw [if_neg hr, if_neg (fun hh => hr hh.2.symm)]

theorem ReadyInv.deliver (h : ReadyInv job n) {i : Nat} {p : Put} (hp : n.flying[i]? = some p) :
    ReadyInv job (n.deliver job i p) := by
  obtain ⟨-, -, hno, hval⟩ := h.flying p (List.mem_of_getElem? hp)
  have hlog : (n.deliver job i p).log = n.log ++ [.delivered p.src p.dst p.no] := rfl
  have hsame : ∀ a, ((n.deliver job i p).tables a).readyValues = (n.tables a).readyValues ∧
      ((n.deliver job i p).tables a).remoteReadyValues = (n.tables a).remoteReadyValues := by
    intro a
    rw [deliver_tables]
    split <;> exact ⟨rfl, rfl⟩
  refine ⟨fun a b => ?_, fun a b => ?_, fun q hq => ?_, fun a b => ?_, h.waits⟩
  · rw [(hsame a).2, h.sent a b, hlog]
    simp
  · rw [(hsame a).1, h.took a b, hlog]
    simp
  · rw [hlog]
    simpa using h.flying q ((List.eraseIdx_sublist ..).subset hq)
  · obtain ⟨hle, hw⟩ := h.table a b
    rw [h.store hp a b, hlog, arrivedNo_append]
    dsimp only
    by_cases hab : p.src = b ∧ p.dst = a
    · rw [if_pos hab, if_pos hab]
      refine ⟨?_, hval⟩
      rw [← hab.1, ← hab.2]
      simpa using hno
    · rw [if_neg hab, if_neg hab]
      exact ⟨by simpa using hle, hw⟩

theorem ReadyInv.take (h : ReadyInv job n) (r s : Nat) : ReadyInv job (n.take r s) := by
  have hlog : (n.take r s).log = n.log ++ [.took r s] := rfl
  have hsame : ∀ a, ((n.take r s).tables a).readyTable = (n.tables a).readyTable ∧
      ((n.take r s).tables a).remoteReadyValues = (n.tables a).remoteReadyValues := by
    intro a
    rw [take_tables]
    split <;> exact ⟨rfl, rfl⟩
  refine ⟨fun a b => ?_, fun a b => ?_, fun q hq => ?_, fun a b => ?_, h.waits⟩
  · rw [(hsame a).2, h.sent a b, hlog]
    simp
  · have hold := h.took a b
    rw [take_tables, hlog, tookCount_append, tookCount_took]
    by_cases ha : a = r
    · rw [if_pos ha, nextExpected_values]
      by_cases hb : b = s
      · rw [if_pos hb, if_pos ⟨ha, hb⟩, hold]
        omega
      · rw [if_neg hb, if_neg (fun hh => hb hh.2)]
        exact hold
    · rw [if_neg ha, if_neg (fun hh => ha hh.1)]
      exact hold
  · rw [hlog]
    simpa using h.flying q hq
  · rw [(hsame a).1, hlog, arrivedNo_append]
    simpa using h.table a b

/-- A release says nothing about the words. -/
theorem ReadyInv.addReleased (h : ReadyInv job n) (r s k : Nat) (ws : List PendingWait)
    (hws : ∀ w ∈ ws, w.value = w.no % 2 ^ 32) :
    ReadyInv job { n with waits := ws, log := n.log ++ [.released r s k] } := by
  refine ⟨fun a b => ?_, fun a b => ?_, fun q hq => ?_, fun a b => ?_, hws⟩
  · simpa using h.sent a b
  · simpa using h.took a b
  · simpa using h.flying q hq
  · dsimp only
    rw [arrivedNo_append]
    simpa using h.table a b

theorem ReadyInv.takeLater (h : ReadyInv job n) (r s : Nat) (waiter : Waiter) :
    ReadyInv job (n.takeLater r s waiter) := by
  obtain ⟨h₁, h₂, h₃, h₄, h₅⟩ := h.take r s
  refine ⟨h₁, h₂, h₃, h₄, fun w hw => ?_⟩
  rcases List.mem_append.mp hw with hw | hw
  · exact h.waits w hw
  · rw [List.mem_singleton.mp hw]
    show (n.tables r).readyValues s = _
    rw [h.took r s, Nat.add_comm]
    rfl

theorem ReadyInv.step (h : ReadyInv job n) {ev : NetEvent} (hs : n.step job kernel ev = some n') :
    ReadyInv job n' := by
  cases happens_of_step hs with
  | send _ hlt hp => exact h.issue hlt hp
  | deliver hp => exact h.deliver hp
  | now => exact (h.take _ _).addReleased _ _ _ _ h.waits
  | notYet => exact h
  | later => exact h.takeLater ..
  | release => exact h.addReleased _ _ _ _ fun v hv => h.waits v ((List.eraseIdx_sublist ..).subset hv)

theorem readyInv_moves (h : NetMoves job kernel n n') (hn : ReadyInv job n) : ReadyInv job n' :=
  Moves.inv (fun _ _ hi ⟨_, hs⟩ => hi.step hs) h hn

end LibMp
