import UringProactor.Core.Destruction
import UringProactor.Prelude.Machine

/-!
# Starting a server

In affinity mode a server gives its threads CPUs.  `get_cpu_list` lists the CPUs node by node;
thread `i` is bound to the CPU at the position `2 * i` of the list, and the kernel thread that
polls its ring to the CPU whose number is one higher.  So a CPU is chosen once by its position
and once by its number.  The CPUs of all threads are different CPUs of the list exactly when
every number chosen in the second way stands in the list at a position that is not chosen in
the first way.
-/

namespace Proactor

/-- What the system tells about its CPUs. -/
structure CpuLayout where
  /-- `numa_num_configured_nodes`. -/
  numNodes : ℕ
  /-- The number of bits of a CPU mask, an `int`. -/
  maskSize : ℕ
  maskSize_lt : maskSize < 2 ^ 31
  /-- The mask that `numa_node_to_cpus` gives for a node. -/
  nodeToCpus : ℕ → ℕ → Bool
  /-- No CPU belongs to two nodes. -/
  disjoint : ∀ node < numNodes, ∀ node' < numNodes, ∀ cpu,
    nodeToCpus node cpu = true → nodeToCpus node' cpu = true → node = node'
  /-- The set that `sched_getaffinity` gives, unless it fails. -/
  affinity : Option (ℕ → Bool)

/-- `CPU_SETSIZE`. -/
def cpuSetSize : ℕ := 1024

/-- `get_cpu_list`. -/
def CpuLayout.getCpuList (layout : CpuLayout) : List ℕ :=
  let cpus := (List.range layout.numNodes).flatMap (fun node =>
    (List.range layout.maskSize).filter (layout.nodeToCpus node))
  if cpus.isEmpty then
    match layout.affinity with
    | some set => (List.range cpuSetSize).filter set
    | none => []
  else
    cpus

/-- The flags of `io_uring_params` that are used. -/
inductive SetupFlag where
  | sqpoll
  | sqAff
deriving DecidableEq

/-- `io_uring_params`, with the fields that are set. -/
structure IoUringParams where
  flags : List SetupFlag
  sqThreadCpu : ℕ
  sqThreadIdle : ℕ
deriving DecidableEq

/-- `IoThread::make_sqpoll_params`. -/
def makeSqpollParams (cpuId : Int) : IoUringParams where
  flags := [.sqpoll, .sqAff]
  sqThreadCpu := u32 ((cpuId % 2 ^ 32).toNat + 1)
  sqThreadIdle := 2 ^ 32 - 1

namespace WorkerObject

/-- `IoThread::bind_to_cpu`: the CPU the thread is bound to. -/
def bindToCpu (s : WorkerObject) : Option ℕ :=
  if s.cpuId < 0 then none else some s.cpuId.toNat

/-- The parameters of the ring in `do_init_resources`, which is the same for both classes. -/
def ringParams (s : WorkerObject) : Option IoUringParams :=
  if 0 ≤ s.cpuId then some (makeSqpollParams s.cpuId) else none

/-- The CPU of the thread and that of the kernel thread which polls its ring. -/
def cpus (s : WorkerObject) : List ℕ :=
  s.bindToCpu.toList ++ s.ringParams.toList.map IoUringParams.sqThreadCpu

theorem cpus_start (kind : WorkerKind) {cpu : ℕ} (hcpu : cpu + 1 < 2 ^ 32) :
  (start kind cpu).cpus = [cpu, cpu + 1]
  := by
  have hnonneg : ¬ (cpu : Int) < 0 := by omega
  have hmod : ((cpu : Int) % 2 ^ 32).toNat = cpu := by omega
  have hparams : (makeSqpollParams cpu).sqThreadCpu = cpu + 1 := by
    rw [makeSqpollParams, hmod]
    exact u32_of_lt hcpu
  simp [cpus, bindToCpu, ringParams, start, hparams, hnonneg]

end WorkerObject

/-- The threads that `start` of a server makes, or its error.  The servers differ in the class
of their threads. -/
def startThreads (kind : WorkerKind) (layout : CpuLayout) (threadNums : ℕ) (cpuAffinity : Bool) :
    Except String (List WorkerObject) :=
  let cpuList := if cpuAffinity then layout.getCpuList else []
  if cpuAffinity ∧ cpuList.length < threadNums * 2 then
    .error "not enough CPUs for cpu_affinity mode"
  else
    .ok ((List.range threadNums).map (fun i =>
      WorkerObject.start kind (if cpuAffinity then cpuList.getD (i * 2) 0 else -1)))

/-- `TcpServer::start`. -/
def TcpServer.start := startThreads .tcp

/-- `UdpServer::start`. -/
def UdpServer.start := startThreads .udp

/-! ### The list of CPUs -/

namespace CpuLayout

variable {layout : CpuLayout} {n : ℕ}

theorem nodup_getCpuList (layout : CpuLayout) :
  layout.getCpuList.Nodup
  := by
  rw [getCpuList]
  split
  · split
    · exact List.nodup_range.filter _
    · exact .nil
  · rw [List.nodup_flatMap]
    constructor
    · intro node _
      exact List.nodup_range.filter _
    · apply List.nodup_range.imp_of_mem
      intro node node' hnode hnode' hne cpu hcpu hcpu'
      apply hne
      apply layout.disjoint node (List.mem_range.mp hnode) node' (List.mem_range.mp hnode') cpu
      · exact (List.mem_filter.mp hcpu).2
      · exact (List.mem_filter.mp hcpu').2

/-- The number of a CPU is an `int`. -/
theorem lt_of_mem_getCpuList {cpu : ℕ} (h : cpu ∈ layout.getCpuList) :
  cpu < 2 ^ 31
  := by
  rw [getCpuList] at h
  split at h
  · split at h
    · have hlt := List.mem_range.mp (List.mem_filter.mp h).1
      rw [cpuSetSize] at hlt
      omega
    · cases h
  · obtain ⟨node, -, hcpu⟩ := List.mem_flatMap.mp h
    apply Nat.lt_trans (List.mem_range.mp (List.mem_filter.mp hcpu).1) layout.maskSize_lt

end CpuLayout

/-! ### Positions and numbers -/

section

variable {l : List ℕ} {n i j : ℕ}

/-- The CPU at the position of thread `i`. -/
def threadCpu (l : List ℕ) (i : ℕ) : ℕ := l.getD (i * 2) 0

theorem getElem?_threadCpu (hn : n * 2 ≤ l.length) (hi : i < n) :
  l[i * 2]? = some (threadCpu l i)
  := by
  rw [threadCpu, List.getD_eq_getElem?_getD, List.getElem?_eq_getElem (by omega),
    Option.getD_some]

/-- The CPUs of different threads are different. -/
theorem threadCpu_inj (hl : l.Nodup) (hn : n * 2 ≤ l.length) (hi : i < n) (hj : j < n)
    (h : threadCpu l i = threadCpu l j) :
  i = j
  := by
  have hi' := getElem?_threadCpu hn hi
  rw [h, ← getElem?_threadCpu hn hj] at hi'
  have heq := (List.getElem?_inj (by omega) hl).mp hi'
  omega

/-- The number `m` stands in the list at a position that is no thread's. -/
def Spare (l : List ℕ) (n m : ℕ) : Prop := ∃ k, l[k]? = some m ∧ (k % 2 = 1 ∨ n * 2 ≤ k)

/-- A number of the list is spare unless it is the CPU of a thread. -/
theorem spare_iff (hl : l.Nodup) (hn : n * 2 ≤ l.length) {m : ℕ} :
  Spare l n m ↔ m ∈ l ∧ ∀ i < n, threadCpu l i ≠ m
  := by
  constructor
  · rintro ⟨k, hk, hspare⟩
    use List.mem_of_getElem? hk
    rintro i hi rfl
    rw [← getElem?_threadCpu hn hi] at hk
    have heq := (List.getElem?_inj (by omega) hl).mp hk.symm
    omega
  · rintro ⟨hm, hne⟩
    obtain ⟨k, hk⟩ := List.mem_iff_getElem?.mp hm
    use k, hk
    by_contra hnot
    -- the position would be that of the thread `k / 2`
    have hhalf : k / 2 < n := by omega
    apply hne (k / 2) hhalf
    have hpos := getElem?_threadCpu hn hhalf
    rw [show k / 2 * 2 = k by omega, hk] at hpos
    exact (Option.some.inj hpos).symm

/-- The CPUs of the threads and their successors are different numbers of the list exactly when
all the successors are spare. -/
theorem nodup_pairs_iff (hl : l.Nodup) (hn : n * 2 ≤ l.length) :
  ((List.range n).flatMap (fun i => [threadCpu l i, threadCpu l i + 1])).Nodup
      ∧ (∀ m ∈ (List.range n).flatMap (fun i => [threadCpu l i, threadCpu l i + 1]), m ∈ l)
    ↔ ∀ i < n, Spare l n (threadCpu l i + 1)
  := by
  have hmem : ∀ m, m ∈ (List.range n).flatMap (fun i => [threadCpu l i, threadCpu l i + 1])
      ↔ ∃ i < n, m = threadCpu l i ∨ m = threadCpu l i + 1 := by
    simp
  simp only [spare_iff hl hn, hmem, List.nodup_flatMap]
  constructor
  · rintro ⟨⟨-, hpairs⟩, hlist⟩ i hi
    use hlist _ ⟨i, hi, .inr rfl⟩
    intro j hj heq
    rcases Nat.lt_trichotomy i j with hij | rfl | hij
    · have hdisjoint := List.pairwise_iff_getElem.mp hpairs i j (by simpa) (by simpa) hij
      simp [heq] at hdisjoint
    · omega
    · have hdisjoint := List.pairwise_iff_getElem.mp hpairs j i (by simpa) (by simpa) hij
      simp [heq] at hdisjoint
  · intro hspare
    refine ⟨⟨by simp, ?_⟩, ?_⟩
    · apply List.nodup_range.imp_of_mem
      intro i j hi hj hij
      have hi := List.mem_range.mp hi
      have hj := List.mem_range.mp hj
      have hne : threadCpu l i ≠ threadCpu l j := fun heq => hij (threadCpu_inj hl hn hi hj heq)
      have hij' := (hspare i hi).2 j hj
      have hji' := (hspare j hj).2 i hi
      rw [Function.onFun, List.disjoint_left]
      simp only [List.mem_cons, List.not_mem_nil, or_false]
      rintro m (rfl | rfl) (heq | heq) <;> omega
    · rintro m ⟨i, hi, rfl | rfl⟩
      · exact List.mem_of_getElem? (getElem?_threadCpu hn hi)
      · exact (hspare i hi).1

end

/-! ### The CPUs of a server -/

theorem startThreads_of_le {kind : WorkerKind} {layout : CpuLayout} {n : ℕ}
    (hn : n * 2 ≤ layout.getCpuList.length) :
  startThreads kind layout n true = .ok ((List.range n).map (fun i =>
    WorkerObject.start kind (threadCpu layout.getCpuList i)))
  := by
  rw [startThreads, if_neg (by simpa using hn)]
  rfl

/-- The CPUs of the threads that a server starts. -/
theorem flatMap_cpus {kind : WorkerKind} {layout : CpuLayout} {n : ℕ}
    (hn : n * 2 ≤ layout.getCpuList.length) :
  ((List.range n).map (fun i =>
      WorkerObject.start kind (threadCpu layout.getCpuList i))).flatMap WorkerObject.cpus
    = (List.range n).flatMap (fun i =>
      [threadCpu layout.getCpuList i, threadCpu layout.getCpuList i + 1])
  := by
  rw [List.flatMap_map]
  apply List.flatMap_congr
  intro i hi
  apply WorkerObject.cpus_start
  have hlt := layout.lt_of_mem_getCpuList
    (List.mem_of_getElem? (getElem?_threadCpu hn (List.mem_range.mp hi)))
  omega

/-- In affinity mode, with at least two CPUs for each thread: a server starts its threads on the
CPUs at the even positions of the list, and the CPUs of the threads and of the kernel threads
that poll their rings are different CPUs of the list exactly when, for every thread, the number
behind that of its CPU stands in the list at a position that is no thread's. -/
theorem cpus_distinct_iff (kind : WorkerKind) (layout : CpuLayout) {n : ℕ}
    (hn : n * 2 ≤ layout.getCpuList.length) :
  ∃ threads, startThreads kind layout n true = .ok threads
    ∧ threads.map WorkerObject.bindToCpu
      = (List.range n).map (fun i => layout.getCpuList[i * 2]?)
    ∧ ((threads.flatMap WorkerObject.cpus).Nodup
          ∧ (∀ cpu ∈ threads.flatMap WorkerObject.cpus, cpu ∈ layout.getCpuList)
        ↔ ∀ i < n, Spare layout.getCpuList n (threadCpu layout.getCpuList i + 1))
  := by
  refine ⟨_, startThreads_of_le hn, ?_, ?_⟩
  · rw [List.map_map]
    apply List.map_congr_left
    intro i hi
    rw [getElem?_threadCpu hn (List.mem_range.mp hi)]
    simp [WorkerObject.bindToCpu, WorkerObject.start]
  · rw [flatMap_cpus hn]
    apply nodup_pairs_iff layout.nodup_getCpuList hn

/-- Two nodes, each with two CPUs that have consecutive numbers. -/
def blockLayout : CpuLayout where
  numNodes := 2
  maskSize := 4
  maskSize_lt := by decide
  nodeToCpus node cpu := cpu / 2 = node
  disjoint := by
    intro node _ node' _ cpu hcpu hcpu'
    rw [← of_decide_eq_true hcpu, ← of_decide_eq_true hcpu']
  affinity := none

/-- Two threads on four CPUs whose numbers are consecutive on each node. -/
theorem cpus_distinct_block_layout :
  ∃ threads, startThreads .tcp blockLayout 2 true = .ok threads
    ∧ threads.flatMap WorkerObject.cpus = [0, 1, 2, 3]
    ∧ (threads.flatMap WorkerObject.cpus).Nodup
    ∧ ∀ cpu ∈ threads.flatMap WorkerObject.cpus, cpu ∈ blockLayout.getCpuList
  := by
  obtain ⟨threads, hstart, -, hiff⟩ := cpus_distinct_iff .tcp blockLayout (n := 2) (by decide)
  have hthreads : threads.flatMap WorkerObject.cpus = [0, 1, 2, 3] := by
    cases hstart
    decide
  use threads, hstart, hthreads
  apply hiff.mpr
  intro i hi
  use i * 2 + 1
  have hi : i = 0 ∨ i = 1 := by omega
  rcases hi with rfl | rfl <;> decide

/-- Two nodes, one with the even and one with the odd CPUs. -/
def interleavedLayout : CpuLayout where
  numNodes := 2
  maskSize := 4
  maskSize_lt := by decide
  nodeToCpus node cpu := cpu % 2 = node
  disjoint := by
    intro node _ node' _ cpu hcpu hcpu'
    rw [← of_decide_eq_true hcpu, ← of_decide_eq_true hcpu']
  affinity := none

/-- One node, of whose CPUs only the even ones are online. -/
def sparseLayout : CpuLayout where
  numNodes := 1
  maskSize := 8
  maskSize_lt := by decide
  nodeToCpus _ cpu := cpu % 2 = 0
  disjoint := by
    intro node hnode node' hnode' _ _ _
    omega
  affinity := none

/-- Two threads on four CPUs: when the nodes are interleaved, the kernel thread that polls the
first ring is on the CPU of the second thread; when the numbers are sparse, both kernel threads
get CPUs that are not in the list. -/
theorem cpus_shared_or_missing :
  (∃ threads, startThreads .tcp interleavedLayout 2 true = .ok threads
      ∧ interleavedLayout.getCpuList = [0, 2, 1, 3]
      ∧ threads.flatMap WorkerObject.cpus = [0, 1, 1, 2]
      ∧ ¬ (threads.flatMap WorkerObject.cpus).Nodup)
    ∧ ∃ threads, startThreads .tcp sparseLayout 2 true = .ok threads
      ∧ sparseLayout.getCpuList = [0, 2, 4, 6]
      ∧ threads.flatMap WorkerObject.cpus = [0, 1, 4, 5]
      ∧ ¬ ∀ cpu ∈ threads.flatMap WorkerObject.cpus, cpu ∈ sparseLayout.getCpuList
  := by
  constructor
  · refine ⟨_, startThreads_of_le (by decide), ?_, ?_, ?_⟩ <;> decide
  · refine ⟨_, startThreads_of_le (by decide), ?_, ?_, ?_⟩ <;> decide

end Proactor
