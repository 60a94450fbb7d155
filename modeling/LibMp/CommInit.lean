import LibMp.StartupRuns
import LibMp.Ready

/- `comm_init` on all ranks of a job (comm.cpp, 186-263), with `mp_window_create`
   (mp.c, 1797-1850).

   After `mp_init` a rank clears its ready tables, registers them, makes them a
   window, and learns in the exchange where the tables of the others stand. A
   rank that knows the table of another can put into it. It knows it after the
   exchange, and by then the other has cleared its tables for the last time and
   has registered them (`tables_ready_before_puts`): no put is lost to a rank
   that starts later. What all ranks have at the end is what the runs of COMM
   start with (`comm_init_establishes`).

   The registration of `remote_ready_values` comes after the last collective call:
   a rank for which it fails does not come back, and no other rank notices. The
   results of `cudaFree` and `ibv_query_port` are not looked at. -/
namespace LibMp

/-- The calls of `comm_init` on all ranks, with the answers of the calls outside
the library: those of `mp_init`; the allocations of `comm_init` and of
`mp_window_create`; and `mp_register` for the ready table, by `comm_init` and by
`mp_window_create`, and for `remote_ready_values`. -/
structure CommStartup where
  job : CommJob
  launch : Nat → Launch
  peers : ∀ r, (launch r).peers = commPeers job.size r
  opens : Nat → Bool
  padding : Nat → Registered
  memory : Nat → Bool
  tableReg : Nat → Registered
  windowMemory : Nat → Bool
  windowReg : Nat → Registered
  remoteReg : Nat → Registered
  blank : Nat → Node
  blank_boot : ∀ r, (blank r).boot = Boot.init (launch r)

theorem commPeers_range {n r p : Nat} (h : p ∈ commPeers n r) : p < n := (mem_commPeers.mp h).1

/-- The loop of `comm_init` over the tables. -/
def clearTables (t : ReadyTables) : Nat → ReadyTables
  | 0 => t
  | n + 1 => { readyTable := Function.update (clearTables t n).readyTable n 0
               readyValues := Function.update (clearTables t n).readyValues n 1
               remoteReadyValues := Function.update (clearTables t n).remoteReadyValues n 1 }

/-- The `clients` that `mp_init` has left, as far as `mp_window_create` reads them. -/
def Boot.config (b : Boot) (count : Nat) : Config := { peers := (List.range count).map fun i => (b.clients i).mpiRank }

namespace CommStartup
variable (cs : CommStartup)

/-- The part of `mp_init`. -/
def mpInit : Startup where
  job := {
    size := cs.job.size
    launch := cs.launch
    nodup := fun a _ => by rw [cs.peers]; exact List.nodup_range.filter _
    range := fun a _ b hb => by rw [cs.peers] at hb; exact commPeers_range hb
    symm := fun a ha b hb => by
      rw [cs.peers, cs.peers, mem_commPeers, mem_commPeers]
      exact ⟨fun h => ⟨ha, h.2.symm⟩, fun h => ⟨hb, h.2.symm⟩⟩ }
  opens := cs.opens
  padding := cs.padding
  blank := cs.blank
  blank_boot := cs.blank_boot

abbrev Rank := cs.mpInit.Rank

/-- `exchange_win` on all ranks, by number. -/
def windows (nodes : cs.Rank → Node) (b : Nat) : Nat → ExchangeWinInfo :=
  if h : b < cs.job.size then (nodes ⟨b, h⟩).exchangeWin else (cs.blank b).exchangeWin

/-- The own slot of `exchange_win`. -/
def offer (a : cs.Rank) (x : Node) : Node :=
  let own : ExchangeWinInfo := ⟨cs.job.tableAt a, cs.job.rkey a, toInt (tableSize cs.job.size)⟩
  { x with exchangeWin := Function.update x.exchangeWin a own }

/-- The loop over the clients in `mp_window_create`. -/
def fillWindow (a : cs.Rank) (x : Node) : Node :=
  let count := (cs.launch a).peers.length
  { x with window := x.window.populate (x.boot.config count) x.exchangeWin count }

/-- From the end of `mp_init` to `MPI_Allgather`. -/
def tableStage : Stage cs.Rank Node StartStop where
  turns a := [
    Prog.require (cs.memory a) .assertion,
    Prog.modify fun x => { x with tables := clearTables x.tables cs.job.size },
    (cs.tableReg a).orElse .mpCheck,
    Prog.require (cs.windowMemory a) .assertion,
    (cs.windowReg a).orElse .assertion,
    Prog.modify (cs.offer a)]
  join nodes a := { nodes a with exchangeWin := allgather cs.job.size (cs.windows nodes) a }

/-- To the `MPI_Barrier` of `mp_window_create`. -/
def windowStage : Stage cs.Rank Node StartStop where
  turns a := [Prog.modify (cs.fillWindow a)]
  join := id

/-- What comes after `mp_init`; the last turn registers `remote_ready_values`. -/
def tablesPlan : Plan cs.Rank Node StartStop where
  stages := [cs.tableStage, cs.windowStage]
  last a := [(cs.remoteReg a).orElse .mpCheck]

def commInitPlan : Plan cs.Rank Node StartStop := cs.mpInit.mpInitThen cs.tablesPlan

/-- What rank `a` needs to get from `mp_init` to the exchange. -/
structure TableCalls (a : cs.Rank) : Prop where
  memory : cs.memory a
  table : cs.tableReg a = .done
  windowMemory : cs.windowMemory a
  window : cs.windowReg a = .done

/-- The calls outside the library whose results are looked at come out well up to
the last collective call, on every rank. -/
structure AllWell : Prop where
  mpInit : cs.mpInit.AllWell
  registered : ∀ a, cs.TableCalls a

/-- The tables of a rank, as far as there are ranks. -/
def Cleared (t : ReadyTables) : Prop :=
  ∀ i < cs.job.size, t.readyTable i = 0 ∧ t.readyValues i = 1 ∧ t.remoteReadyValues i = 1

variable {cs} {s s' : Team cs.Rank Node StartStop} {a b : cs.Rank} {k : Nat}

theorem clearTables_get (t : ReadyTables) {n i : Nat} (hi : i < n) :
    (clearTables t n).readyTable i = 0 ∧ (clearTables t n).readyValues i = 1 ∧
      (clearTables t n).remoteReadyValues i = 1 := by
  induction n with
  | zero => exact absurd hi (Nat.not_lt_zero i)
  | succ n ih =>
    by_cases hin : i = n
    · subst hin
      simp [clearTables]
    · simpa [clearTables, hin] using ih (by omega)

/-- What the turns up to the exchange leave, if they go through. -/
def tablesMade (a : cs.Rank) (x : Node) : Node :=
  cs.offer a { x with tables := clearTables x.tables cs.job.size }

theorem comes_tables (a : cs.Rank) : cs.commInitPlan.Comes cs.mpInit.before 3 a ↔ cs.TableCalls a := by
  have hrun : cs.commInitPlan.outcome cs.mpInit.before 3 a =
      runAll (cs.tableStage.turns a) (cs.commInitPlan.entry cs.mpInit.before 3 a) := rfl
  unfold Plan.Comes
  rw [hrun]
  simp only [tableStage, runAll, bind_fst_ok, require_fst_ok, (orElse_run _ _ _).1]
  exact ⟨fun h => ⟨h.1, h.2.2.1, h.2.2.2.1, h.2.2.2.2.1⟩,
    fun h => ⟨h.memory, rfl, h.table, h.windowMemory, h.window, rfl, rfl⟩⟩

theorem runAll_tables {a : cs.Rank} (h : cs.TableCalls a) (x : Node) :
    runAll (cs.tableStage.turns a) x = (.ok (), tablesMade a x) := by
  simp only [tableStage, runAll, h.memory, h.table, h.windowMemory, h.window]
  rfl

/-- What the ranks bring to the exchange. -/
theorem brought_tables (h : cs.commInitPlan.Comes cs.mpInit.before 3 a) :
    cs.commInitPlan.outcome cs.mpInit.before 3 a =
      (.ok (), tablesMade a (cs.commInitPlan.entry cs.mpInit.before 3 a)) := by
  exact runAll_tables ((comes_tables a).mp h) _

theorem entry_window (h : cs.commInitPlan.Comes cs.mpInit.before 3 a) : cs.commInitPlan.entry cs.mpInit.before 4 a =
    { tablesMade a (cs.commInitPlan.entry cs.mpInit.before 3 a) with
      exchangeWin := allgather cs.job.size
        (cs.windows fun b => (cs.commInitPlan.outcome cs.mpInit.before 3 b).2) a } := by
  rw [← (Prod.mk.inj (brought_tables h)).2]
  rfl

theorem entry_end (a : cs.Rank) : cs.commInitPlan.entry cs.mpInit.before 5 a =
    cs.fillWindow a (cs.commInitPlan.entry cs.mpInit.before 4 a) := rfl

/-- The tables have been cleared. -/
theorem cleared_made (a : cs.Rank) (x : Node) : cs.Cleared (tablesMade a x).tables := by
  intro i hi
  exact clearTables_get x.tables hi

/-- From its entry into the exchange on a rank leaves its tables alone. -/
theorem tables_kept (h : Team.Synced cs.commInitPlan cs.mpInit.before s) (hb : (s.procs b).Entered 3) :
    cs.commInitPlan.Comes cs.mpInit.before 3 b ∧
      (s.procs b).loc.tables = (tablesMade b (cs.commInitPlan.entry cs.mpInit.before 3 b)).tables := by
  have hcomes : cs.commInitPlan.Comes cs.mpInit.before 3 b := by
    unfold Plan.Comes
    rw [h.brought 3 b hb]
  refine ⟨hcomes, ?_⟩
  have hentry : (cs.commInitPlan.entry cs.mpInit.before 4 b).tables =
      (tablesMade b (cs.commInitPlan.entry cs.mpInit.before 3 b)).tables := by
    rw [entry_window hcomes]
  have hlen : (s.procs b).stage ≤ 5 := h.stage_le_length b
  rcases hb with hlt | ⟨heq, hw⟩
  · -- it fills in its window, or registers
    rcases Nat.lt_or_eq_of_le hlen with hlt5 | heq
    · have hturns : ∀ t ∈ cs.windowStage.turns b, Prog.Within (Kept fun x : Node => x.tables =
          (tablesMade b (cs.commInitPlan.entry cs.mpInit.before 3 b)).tables) t := by
        intro t ht
        rw [List.mem_singleton.mp ht]
        exact Prog.Within.modify fun x hx => hx
      exact h.within (show (s.procs b).stage = 4 by omega) hturns hentry
    · have hturns : ∀ t ∈ cs.tablesPlan.last b, Prog.Within (Kept fun x : Node => x.tables =
          (tablesMade b (cs.commInitPlan.entry cs.mpInit.before 3 b)).tables) t := by
        intro t ht
        rw [List.mem_singleton.mp ht]
        exact Startup.orElse_within _ _
      exact h.within heq hturns hentry
  · have ho := (h.waiting hw).2
    rw [← heq, brought_tables hcomes] at ho
    rw [← (Prod.mk.inj ho).2]

/-- In every state that the ranks can be in during `comm_init`, however their
steps are interleaved and whoever has failed: as soon as one rank knows where
the tables of the others stand, all ranks have registered and cleared theirs,
and do not write to them again. -/
theorem tables_ready_before_puts (h : Moves (Team.Step cs.commInitPlan) (Team.start cs.mpInit.before) s)
    (ha : 3 < (s.procs a).stage) (b : cs.Rank) :
    cs.tableReg b = .done ∧ cs.windowReg b = .done ∧ cs.Cleared (s.procs b).loc.tables ∧
    ∀ s', Moves (Team.Step cs.commInitPlan) s s' → (s'.procs b).loc.tables = (s.procs b).loc.tables := by
  have hs := Team.synced_moves h
  obtain ⟨hcomes, htables⟩ := tables_kept hs (hs.entered a 3 ha b)
  have hcalls := (comes_tables b).mp hcomes
  refine ⟨hcalls.table, hcalls.window, ?_, fun s' hm => ?_⟩
  · rw [htables]
    exact cleared_made b _
  · have hs' := Team.synced_moves (h.trans hm)
    have hentered := hs'.entered a 3 (Nat.lt_of_lt_of_le ha (Team.stage_mono hm a)) b
    rw [htables, (tables_kept hs' hentered).2]

/-! ## What is there at the end -/

theorem allWell_iff : cs.AllWell ↔ ∀ k < 5, ∀ a, cs.commInitPlan.Comes cs.mpInit.before k a := by
  constructor
  · intro h k hk a
    match k, hk with
    | 0, _ | 1, _ | 2, _ => exact (cs.mpInit.allWell_iff cs.tablesPlan).mp h.mpInit _ (by decide) a
    | 3, _ => exact (comes_tables a).mpr (h.registered a)
    | 4, _ => rfl
  · intro h
    refine ⟨(cs.mpInit.allWell_iff cs.tablesPlan).mpr fun k hk a => h k (by omega) a, fun a => ?_⟩
    exact (comes_tables a).mp (h 3 (by decide) a)

/-- What rank `a` has of `mp_init`, of its tables and of the window is what the
runs of COMM take for given. -/
structure Established (cs : CommStartup) (a : cs.Rank) (x : Node) : Prop where
  index : ∀ p, x.boot.clientIndex p =
    match (cs.job.comm a).mp.clientIndex p with
    | some i => (i : Int)
    | none => badIndex
  tables : cs.Cleared x.tables
  window : ∀ i < (cs.job.comm a).mp.clientCount,
    x.window.basePtr i = (cs.job.comm a).readyTableWin.basePtr i ∧
    x.window.rkey i = (cs.job.comm a).readyTableWin.rkey i ∧ x.window.rsize i = (cs.job.comm a).readyTableWin.rsize i

/-- `clients[i].mpi_rank` as `mp_window_create` reads it. -/
theorem config_mpiRank {fin : Nat → Boot} (h : cs.mpInit.job.Starts fin) (a : cs.Rank) {i p : Nat}
    (hp : (cs.launch a).peers[i]? = some p) : ((fin a).config (cs.launch a).peers.length).mpiRank i = p := by
  obtain ⟨j, q, q', -, -, -, hc⟩ := h.client a.2 hp
  have hrank : ((fin a).clients i).mpiRank = p := by
    rw [hc]
    unfold Conn.toRts
    split <;> rfl
  have hi : i < (cs.launch a).peers.length := (List.getElem?_eq_some_iff.mp hp).1
  unfold Boot.config Config.mpiRank
  simp [List.getD_eq_getElem?_getD, hi, hrank]

/-- The slot of a rank after the exchange. -/
theorem slot_after (h : ∀ b, cs.commInitPlan.Comes cs.mpInit.before 3 b) (a b : cs.Rank) :
    (cs.commInitPlan.entry cs.mpInit.before 4 a).exchangeWin b =
      ⟨cs.job.tableAt b, cs.job.rkey b, toInt (tableSize cs.job.size)⟩ := by
  have hslot : cs.windows (fun b => (cs.commInitPlan.outcome cs.mpInit.before 3 b).2) b =
      (tablesMade b (cs.commInitPlan.entry cs.mpInit.before 3 b)).exchangeWin := by
    rw [← (Prod.mk.inj (brought_tables (h b))).2]
    exact dif_pos b.2
  have hb : (b : Nat) < cs.job.size := b.2
  rw [entry_window (h a)]
  dsimp only [allgather]
  rw [if_pos hb, hslot]
  exact Function.update_self ..

theorem established (h : cs.AllWell) (a : cs.Rank) :
    cs.Established a (cs.commInitPlan.entry cs.mpInit.before 5 a) ∧
      (cs.commInitPlan.entry cs.mpInit.before 5 a).boot = (cs.commInitPlan.entry cs.mpInit.before 3 a).boot := by
  have hcomes := allWell_iff.mp h
  have hstarts := @Startup.starts cs.mpInit cs.tablesPlan fun k hk a => hcomes k (by omega) a
  have hboots := cs.mpInit.boots_self
    (fun a => (cs.mpInit.mpInitThen cs.tablesPlan).entry cs.mpInit.before 3 a) a
  have hboot : (cs.commInitPlan.entry cs.mpInit.before 4 a).boot =
      (cs.commInitPlan.entry cs.mpInit.before 3 a).boot := by
    rw [entry_window (hcomes 3 (by decide) a)]
    rfl
  have hend : (cs.commInitPlan.entry cs.mpInit.before 5 a).boot =
      (cs.commInitPlan.entry cs.mpInit.before 3 a).boot := hboot
  refine ⟨⟨fun p => ?_, ?_, fun i hi => ?_⟩, hend⟩
  · have hidx := hstarts.clientIndex a.2 p
    rw [hboots] at hidx
    rw [hend]
    refine Eq.trans hidx ?_
    rw [show (cs.mpInit.job.launch a).peers = commPeers cs.job.size a from cs.peers a]
    rfl
  · rw [entry_end, fillWindow, entry_window (hcomes 3 (by decide) a)]
    exact cleared_made a _
  · -- client `i` is that of some other rank `p`
    have hi : i < (commPeers cs.job.size a).length := hi
    obtain ⟨p, hp⟩ : ∃ p, (commPeers cs.job.size a)[i]? = some p := ⟨_, List.getElem?_eq_getElem hi⟩
    have hpeer : (cs.launch a).peers[i]? = some p := by
      rw [cs.peers]
      exact hp
    have hlt : p < cs.job.size := commPeers_range (List.mem_of_getElem? hp)
    have hrank :
        ((cs.commInitPlan.entry cs.mpInit.before 4 a).boot.config (cs.launch a).peers.length).mpiRank i = p := by
      have := config_mpiRank hstarts a hpeer
      rw [hboots] at this
      rw [hboot]
      exact this
    have hmine : (cs.job.comm a).mp.mpiRank i = p := by
      change (commPeers cs.job.size a).getD i 0 = p
      rw [List.getD_eq_getElem?_getD, hp, Option.getD_some]
    obtain ⟨hbase, hkey, hsize⟩ := Window.populate_get
      (cs.commInitPlan.entry cs.mpInit.before 4 a).exchangeWin
      (cs.commInitPlan.entry cs.mpInit.before 4 a).window (List.getElem?_eq_some_iff.mp hpeer).1
    rw [hrank, slot_after (hcomes 3 (by decide)) a ⟨p, hlt⟩] at hbase hkey hsize
    refine ⟨hbase.trans ?_, hkey.trans ?_, hsize.trans ?_⟩
    · exact (congrArg cs.job.tableAt hmine).symm
    · exact (congrArg cs.job.rkey hmine).symm
    · unfold CommJob.comm mpWindowCreate
      dsimp only
      exact toUint64_toInt_eq (tableSize cs.job.size)

/-- How the last turn of rank `a` ends: it comes back, or it exits or spins in the
registration of `remote_ready_values`. -/
def Ends (s : Team cs.Rank Node StartStop) (a : cs.Rank) : Prop :=
  match cs.remoteReg a with
  | .done => Team.Back cs.commInitPlan s a
  | .failure => (s.procs a).mode = .stopped .mpCheck
  | .spinning => (s.procs a).mode = .stopped .spinning

theorem outcome_last (a : cs.Rank) (x : Node) : runAll (cs.tablesPlan.last a) x =
    match cs.remoteReg a with
    | .done => (.ok (), x)
    | .failure => (.error .mpCheck, x)
    | .spinning => (.error .spinning, x) := by
  cases hr : cs.remoteReg a <;> simp only [tablesPlan, runAll, hr] <;> rfl

/-- Behind the last collective call. -/
theorem last_ends (h : Team.Synced cs.commInitPlan cs.mpInit.before s) (hover : Team.Over cs.commInitPlan s)
    (ha : (s.procs a).stage = 5) : Ends s a ∧ (s.procs a).loc = cs.commInitPlan.entry cs.mpInit.before 5 a := by
  have hlast := h.last_outcome hover ha
  have hrun : cs.commInitPlan.outcome cs.mpInit.before cs.commInitPlan.length a =
      runAll (cs.tablesPlan.last a) (cs.commInitPlan.entry cs.mpInit.before 5 a) := rfl
  rw [hrun, outcome_last] at hlast
  unfold Ends
  cases hr : cs.remoteReg a with
  | done =>
    rw [hr] at hlast
    rcases hlast with ⟨hback, ho⟩ | ⟨e, -, ho⟩
    · exact ⟨hback, (Prod.mk.inj ho).2.symm⟩
    · cases (Prod.mk.inj ho).1
  | failure | spinning =>
    rw [hr] at hlast
    rcases hlast with ⟨-, ho⟩ | ⟨e, hm, ho⟩
    · cases (Prod.mk.inj ho).1
    · cases (Prod.mk.inj ho).1
      exact ⟨hm, (Prod.mk.inj ho).2.symm⟩

/-- For every run of `comm_init` on all ranks that is over, with any interleaving,
and every run can be brought to its end: if the calls outside the library whose
results are looked at come out well up to the last collective call (`AllWell`), all
ranks leave it with the connections of `mp_init`, and on each of them `client_index`,
the tables and the window of the tables are those with which the runs of COMM start
(`CommJob.comm`, `Net.init`); each of them comes back exactly if it can register
`remote_ready_values`, and if not it exits or spins alone. Otherwise none comes
back: each has failed, spins, or waits in the same collective call. -/
theorem comm_init_establishes (h : Moves (Team.Step cs.commInitPlan) (Team.start cs.mpInit.before) s) :
    (∃ s', Moves (Team.Step cs.commInitPlan) s s' ∧ Team.Over cs.commInitPlan s') ∧
    (Team.Over cs.commInitPlan s →
      (cs.AllWell ∧ (∀ a, (s.procs a).stage = 5 ∧ cs.Established a (s.procs a).loc ∧ Ends s a) ∧
        cs.mpInit.job.Starts (cs.mpInit.boots fun a => (s.procs a).loc)) ∨
      (¬ cs.AllWell ∧ ∃ k < 5, s.HeldUp k)) := by
  have hs := Team.synced_moves h
  refine ⟨hs.ends, fun hover => ?_⟩
  rcases hs.stuck hover with hall | hup
  · have hcomes := (hs.through_iff hover).mp hall
    have hwell := allWell_iff.mpr hcomes
    have hlast : ∀ a, Ends s a ∧ (s.procs a).loc = cs.commInitPlan.entry cs.mpInit.before 5 a :=
      fun a => last_ends hs hover (hall a)
    have hboots : cs.mpInit.boots (fun a => (s.procs a).loc) =
        cs.mpInit.boots fun a => cs.commInitPlan.entry cs.mpInit.before 3 a := by
      funext a
      unfold Startup.boots
      split
      · dsimp only
        rw [(hlast _).2, (established hwell _).2]
      · rfl
    refine .inl ⟨hwell, fun a => ⟨hall a, ?_, (hlast a).1⟩, ?_⟩
    · rw [(hlast a).2]
      exact (established hwell a).1
    · rw [hboots]
      have hlen : cs.commInitPlan.length = 5 := rfl
      exact Startup.starts fun k hk a => hcomes k (by omega) a
  · refine .inr ⟨fun hwell => ?_, hup⟩
    have hall := (hs.through_iff hover).mpr (allWell_iff.mp hwell)
    obtain ⟨k, hk, hheld⟩ := hup
    obtain ⟨a, -, -⟩ := hheld.failed
    have := hheld.stage a
    rw [hall a] at this
    omega

/-- Two runs of `comm_init` on the same ranks that are over have ended alike, in
whatever order the ranks took their steps, and also where calls have failed: a rank
that is back, has failed or waits for good in the one has done so in the other, at
the same place and with the same connections, tables and window. On the way no rank
is ahead of another by more than one collective call. -/
theorem comm_init_ends_alike (h : Moves (Team.Step cs.commInitPlan) (Team.start cs.mpInit.before) s)
    (h' : Moves (Team.Step cs.commInitPlan) (Team.start cs.mpInit.before) s') :
    (∀ a b, (s.procs a).stage ≤ (s.procs b).stage + 1) ∧
    (Team.Over cs.commInitPlan s → Team.Over cs.commInitPlan s' → ∀ a, (s.procs a).stage = (s'.procs a).stage ∧
      (s.procs a).mode = (s'.procs a).mode ∧ (s.procs a).loc = (s'.procs a).loc) := by
  have hs := Team.synced_moves h
  have hs' := Team.synced_moves h'
  exact ⟨fun a b => hs.stage_le a b, fun hover hover' a => hs.end_eq hover hs' hover' a⟩

/-- The two ranks of `twoRanks`, and nothing fails. -/
def twoStart : CommStartup where
  job := twoRanks
  launch r := { peers := commPeers 2 r, lid := 7, createQp := fun i => some (20 + 10 * r + i) }
  peers _ := rfl
  opens _ := true
  padding _ := .done
  memory _ := true
  tableReg _ := .done
  windowMemory _ := true
  windowReg _ := .done
  remoteReg _ := .done
  blank r := ⟨Boot.init { peers := commPeers 2 r, lid := 7, createQp := fun i => some (20 + 10 * r + i) },
    ⟨fun _ => 9, fun _ => 9, fun _ => 9⟩, fun _ => {}, ⟨fun _ => 0, fun _ => 0, fun _ => 0⟩⟩
  blank_boot _ := rfl

theorem twoStart_allWell : twoStart.AllWell where
  mpInit := {
    opens := fun _ => rfl
    created := by decide
    received := by decide
    sent := by decide
    padding := fun _ _ => rfl }
  registered _ := ⟨rfl, rfl, rfl, rfl⟩

/-- Rank 1 cannot register its `remote_ready_values`. -/
def remoteFails : CommStartup := { twoStart with remoteReg := fun r => if r = 0 then .done else .spinning }

theorem remoteFails_allWell : remoteFails.AllWell := ⟨twoStart_allWell.mpInit, fun _ => ⟨rfl, rfl, rfl, rfl⟩⟩

/-- Rank 0 comes back, with cleared tables, and rank 1 spins. -/
theorem comm_init_establishes_of_two : ∃ s,
    Moves (Team.Step remoteFails.commInitPlan) (Team.start remoteFails.mpInit.before) s ∧
    (∀ a, (s.procs a).loc.tables.readyTable 0 = 0) ∧ Team.Back remoteFails.commInitPlan s (0 : Fin 2) ∧
    (s.procs (1 : Fin 2)).mode = .stopped .spinning := by
  obtain ⟨s, hm, hover⟩ := (@comm_init_establishes remoteFails _ .refl).1
  rcases (comm_init_establishes hm).2 hover with ⟨-, hall, -⟩ | ⟨hnot, -⟩
  · exact ⟨s, hm, fun a => ((hall a).2.1.tables 0 (by decide)).1, (hall (0 : Fin 2)).2.2, (hall (1 : Fin 2)).2.2⟩
  · exact absurd remoteFails_allWell hnot

/-- Rank 1 cannot register its window. -/
def windowFails : CommStartup := { twoStart with windowReg := fun r => if r = 0 then .done else .spinning }

/-- However the two ranks are interleaved, none of them comes back, and they end alike. -/
theorem comm_init_ends_alike_of_failed : ∃ s,
    Moves (Team.Step windowFails.commInitPlan) (Team.start windowFails.mpInit.before) s ∧
    Team.Over windowFails.commInitPlan s ∧ (∃ k < 5, s.HeldUp k) ∧
    ∀ s', Moves (Team.Step windowFails.commInitPlan) (Team.start windowFails.mpInit.before) s' →
      Team.Over windowFails.commInitPlan s' → ∀ a, (s.procs a).mode = (s'.procs a).mode := by
  have hsynced := @Team.synced_start _ _ _ windowFails.commInitPlan windowFails.mpInit.before
  obtain ⟨s, hm, hover⟩ := hsynced.ends
  refine ⟨s, hm, hover, ?_, fun s' hm' hover' a => ((comm_init_ends_alike hm hm').2 hover hover' a).2.1⟩
  have hs := Team.synced_moves hm
  refine (hs.stuck hover).resolve_left fun hall => ?_
  have hwell := allWell_iff.mpr ((hs.through_iff hover).mp hall)
  have hone := (hwell.registered (1 : Fin 2)).window
  cases hone

/-- When rank 0 is back, rank 1 has cleared its table for the last time. -/
theorem tables_ready_before_puts_of_two : ∃ s,
    Moves (Team.Step twoStart.commInitPlan) (Team.start twoStart.mpInit.before) s ∧
    (s.procs (1 : Fin 2)).loc.tables.readyTable 0 = 0 := by
  have hsynced := @Team.synced_start _ _ _ twoStart.commInitPlan twoStart.mpInit.before
  obtain ⟨s, hm, hover⟩ := hsynced.ends
  have hall := ((Team.synced_moves hm).through_iff hover).mpr (allWell_iff.mp twoStart_allWell)
  have hback : 3 < (s.procs (0 : Fin 2)).stage := Nat.lt_of_lt_of_eq (by decide) (hall (0 : Fin 2)).symm
  exact ⟨s, hm, ((tables_ready_before_puts hm hback (1 : Fin 2)).2.2.1 0 (by decide)).1⟩

end CommStartup
end LibMp
