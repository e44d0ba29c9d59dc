/-
# The generators of the files under `/proc`

Each generator of `src/procfs.c` is a chain of calls `p += ksnprintf(buf + p, max - p, ...)`.  Here
it is the list of these calls with their formats and arguments.
-/
import Microkernel.Ksnprintf
import Microkernel.Kernel
import Microkernel.Procfs

open CutText

namespace Microkernel

/-! ## Calls of `ksnprintf` -/

/-- The conversions of a format that take an argument. -/
def conversions : List UInt8 → List Conversion
  | [] => []
  | c :: fmt =>
    if c = percent then
      match fmt with
      | [] => []
      | k :: fmt => (conversionOf k).toList ++ conversions fmt
    else conversions fmt

/-- The argument is of the type that the conversion reads. -/
def Conversion.fits : Conversion → FormatArg → Bool
  | .s, .str _ => true
  | .s, .word _ => false
  | _, .str _ => false
  | _, .word _ => true

/-- The arguments are those that the conversions read. -/
def argsFit : List Conversion → List FormatArg → Bool
  | [], [] => true
  | k :: ks, arg :: args => k.fits arg && argsFit ks args
  | _, _ => false

/-- A call of `ksnprintf` whose arguments match its format, which has no signed conversion. -/
structure SnCall where
  fmt : String
  args : List FormatArg
  convs : List Conversion
  convs_eq : conversions fmt.toUTF8.toList = convs
  fits : argsFit convs args = true
  unsigned : Conversion.d ∉ convs

/-- A call, with the conversions of its format. -/
def sn (fmt : String) (convs : List Conversion) (args : List FormatArg)
    (convs_eq : conversions fmt.toUTF8.toList = convs := by decide +kernel)
    (fits : argsFit convs args = true := by rfl)
    (unsigned : Conversion.d ∉ convs := by decide) : SnCall :=
  ⟨fmt, args, convs, convs_eq, fits, unsigned⟩

/-- `p += ksnprintf(buf + p, max - p, ...)`: the new `p`, and the bytes at the beginning of the
buffer. -/
def SnCall.run (max : ℤ) (call : SnCall) (s : ℤ × List UInt8) : Option (ℤ × List UInt8) :=
  (ksnprintf (max - s.1) call.fmt.toUTF8.toList call.args).map fun r =>
    (s.1 + r.1, s.2.take s.1.toNat ++ r.2)

/-- A chain of calls. -/
def runCalls (max : ℤ) : List SnCall → ℤ × List UInt8 → Option (ℤ × List UInt8)
  | [], s => some s
  | call :: calls, s => (call.run max s).bind (runCalls max calls)

/-! ## The generators -/

/-- What the generators read. -/
structure ProcState where
  kernel : Kernel
  /-- `cpuid_get_info()`. -/
  vendor : List UInt8
  brand : List UInt8
  family : UInt32
  model : UInt32
  stepping : UInt32
  hasFpu : Bool
  hasPae : Bool
  hasPse : Bool
  hasApic : Bool
  hasMsr : Bool
  hasSse : Bool
  hasSse2 : Bool
  hasSse3 : Bool
  hasAvx : Bool
  totalPages : UInt32
  freePages : UInt32
  usedPages : UInt32
  heapFreeSpace : UInt32
  heapUsedSpace : UInt32
  /-- `timer_freq`, which is a divisor. -/
  timerFreq : UInt32
  timerFreq_ne : timerFreq ≠ 0
  /-- `fat16_get_info()->volume_label`, if a volume is mounted. -/
  volumeLabel : Option (List UInt8)
  netIsAvailable : Bool

variable (s : ProcState)

/-- `task_count`. -/
def ProcState.taskCount : UInt32 :=
  UInt32.ofNat ((List.finRange maxTasks).countP fun i => (s.kernel.tasks i).active)

/-- A call that is made on a condition. -/
def callIf (b : Bool) (call : SnCall) : List SnCall := if b then [call] else []

def genCpuinfo : List SnCall :=
  let brand := s.brand.dropWhile (· == 0x20)
  [sn "processor\t: 0\n" [] [],
    sn "vendor_id\t: %s\n" [.s] [.str s.vendor],
    sn "model name\t: %s\n" [.s] [.str brand],
    sn "cpu family\t: %u\n" [.u] [.word s.family],
    sn "model\t\t: %u\n" [.u] [.word s.model],
    sn "stepping\t: %u\n" [.u] [.word s.stepping],
    sn "flags\t\t:" [] []] ++
  callIf s.hasFpu (sn " fpu" [] []) ++
  callIf s.hasPae (sn " pae" [] []) ++
  callIf s.hasPse (sn " pse" [] []) ++
  callIf s.hasApic (sn " apic" [] []) ++
  callIf s.hasMsr (sn " msr" [] []) ++
  callIf s.hasSse (sn " sse" [] []) ++
  callIf s.hasSse2 (sn " sse2" [] []) ++
  callIf s.hasSse3 (sn " sse3" [] []) ++
  callIf s.hasAvx (sn " avx" [] []) ++
  [sn "\nbogomips\t: %u.00\n" [.u] [.word (s.timerFreq * 2)]]

def genMeminfo : List SnCall :=
  [sn "MemTotal:       %u kB\n" [.u] [.word (s.totalPages * 4)],
    sn "MemFree:        %u kB\n" [.u] [.word (s.freePages * 4)],
    sn "MemUsed:        %u kB\n" [.u] [.word (s.usedPages * 4)],
    sn "HeapFree:       %u kB\n" [.u] [.word (s.heapFreeSpace / 1024)],
    sn "HeapUsed:       %u kB\n" [.u] [.word (s.heapUsedSpace / 1024)],
    sn "PageSize:       4 kB\n" [] [],
    sn "TotalPages:     %u\n" [.u] [.word s.totalPages],
    sn "FreePages:      %u\n" [.u] [.word s.freePages]]

def genUptime : List SnCall :=
  let ticks := s.kernel.tickCount
  [sn "%u.%u 0.0\n" [.u, .u] [.word (ticks / s.timerFreq), .word (ticks % 100 * 10)]]

def genVersion : List SnCall := [sn "MicroKernel v0.2.0 (i686-gcc) #1 SMP PREEMPT x86\n" [] []]

def genStat : List SnCall :=
  let ticks := s.kernel.tickCount
  [sn "cpu  %u 0 0 %u 0 0 0 0 0 0\n" [.u, .u] [.word ticks, .word ticks],
    sn "ctxt %u\n" [.u] [.word s.kernel.totalCtxSwitches],
    sn "btime 0\n" [] [],
    sn "processes %u\n" [.u] [.word s.taskCount],
    sn "procs_running %u\n" [.u] [.word s.taskCount]]

def genLoadavg : List SnCall :=
  let count := s.taskCount
  [sn "0.%u 0.%u 0.%u %u/%u 0\n" [.u, .u, .u, .u, .u]
    [.word (count * 5), .word (count * 3), .word (count * 2), .word count, .word count]]

def genFilesystems : List SnCall :=
  [sn "nodev\tramfs\n" [] [], sn "nodev\tprocfs\n" [] [], sn "\tfat16\n" [] []]

/-- The lines of `/proc/mounts` that are always there. -/
def mountsAlways : List SnCall :=
  [sn "ramfs / ramfs rw 0 0\n" [] [], sn "procfs /proc procfs ro 0 0\n" [] []]

/-- The line of FAT16. -/
def mountsLabel (label : List UInt8) : SnCall :=
  sn "/dev/hda /disk fat16 rw 0 0 # %s\n" [.s] [.str label]

def genMounts : List SnCall :=
  mountsAlways ++
  match s.volumeLabel with
  | none => []
  | some label => [mountsLabel label]

/-- `task_state_str`. -/
def taskStateStr : TaskState → String
  | .ready => "R (ready)"
  | .running => "R (running)"
  | .sleeping => "S (sleeping)"
  | .blocked => "D (blocked)"
  | .terminated => "Z (terminated)"

def genPidStatus (pid : ℕ) : List SnCall :=
  match (List.finRange maxTasks).find? fun i =>
    (s.kernel.tasks i).active && (s.kernel.tasks i).id.toInt32.toInt == pid with
  | none => [sn "No such process\n" [] []]
  | some i =>
    let t := s.kernel.tasks i
    [sn "Name:\t%s\n" [.s] [.str t.name],
      sn "State:\t%s\n" [.s] [.str (taskStateStr t.state).toUTF8.toList],
      sn "Pid:\t%u\n" [.u] [.word t.id],
      sn "Priority:\t%u\n" [.u] [.word t.priority],
      sn "Quantum:\t%u\n" [.u] [.word t.quantum],
      sn "CpuTicks:\t%u\n" [.u] [.word t.cpuTicks],
      sn "Switches:\t%u\n" [.u] [.word t.switches],
      sn "StackBase:\t0x%x\n" [.x] [.word t.stackBase],
      sn "StackSize:\t%u\n" [.u] [.word t.stackSize]]

def genProcesses : List SnCall :=
  (List.finRange maxTasks).flatMap fun i =>
    let t := s.kernel.tasks i
    callIf t.active (sn "%u %s %s\n" [.u, .s, .s]
      [.word t.id, .str t.name, .str (taskStateStr t.state).toUTF8.toList])

def genNetDev : List SnCall :=
  [sn "Inter-|   Receive                                     |  Transmit\n" [] [],
    sn " face |bytes  packets errs drop fifo frame compressed |bytes  packets\n" [] []] ++
  callIf s.netIsAvailable
    (sn "  eth0: 0       0       0    0    0    0     0         0       0\n" [] []) ++
  [sn "    lo: 0       0       0    0    0    0     0         0       0\n" [] []]

def genInterrupts : List SnCall :=
  [sn "  0: %u   PIT (timer)\n" [.u] [.word s.kernel.tickCount],
    sn "  1: -    PS/2 keyboard\n" [] [],
    sn "  8: -    RTC\n" [] []] ++
  callIf s.netIsAvailable (sn " 11: -    RTL8139 NIC\n" [] []) ++
  [sn "128: -    Syscall (INT 0x80)\n" [] []]

def genScheduler : List SnCall :=
  let mode := if s.kernel.preemptiveEnabled then "preemptive" else "cooperative"
  let quantum := s.kernel.defaultQuantum
  [sn "mode:\t\t%s\n" [.s] [.str mode.toUTF8.toList],
    sn "quantum:\t%u ticks (%u ms)\n" [.u, .u]
      [.word quantum, .word (quantum * 1000 / s.timerFreq)],
    sn "frequency:\t%u Hz\n" [.u] [.word s.timerFreq],
    sn "total_switches:\t%u\n" [.u] [.word s.kernel.totalCtxSwitches],
    sn "active_tasks:\t%u\n" [.u] [.word s.taskCount]]

/-- The generator of a file. -/
def generator : ProcFile → List SnCall
  | .cpuinfo => genCpuinfo s
  | .meminfo => genMeminfo s
  | .uptime => genUptime s
  | .version => genVersion
  | .stat => genStat s
  | .loadavg => genLoadavg s
  | .filesystems => genFilesystems
  | .mounts => genMounts s
  | .processes => genProcesses s
  | .interrupts => genInterrupts s
  | .scheduler => genScheduler s
  | .netDev => genNetDev s
  | .pidStatus pid => genPidStatus s pid

/-! ## Formats with their arguments -/

theorem takePiece_of_none {k : UInt8} (hk : conversionOf k = none) (args : List FormatArg) :
    takePiece k args = some (.char k, args) := by
  unfold takePiece
  rw [hk]

theorem takePiece_of_fits {k : UInt8} {conv : Conversion} {arg : FormatArg}
    (hk : conversionOf k = some conv) (hfits : conv.fits arg = true) (args : List FormatArg) :
    ∃ piece, takePiece k (arg :: args) = some (piece, args) ∧
      (conv ≠ .d → piece ≠ .signed Int32.minValue) := by
  unfold takePiece
  rw [hk]
  cases arg with
  | str s =>
    cases conv with
    | s => exact ⟨.str s, rfl, fun _ h => nomatch h⟩
    | d | u | x | c => exact absurd hfits Bool.false_ne_true
  | word w =>
    cases conv with
    | s => exact absurd hfits Bool.false_ne_true
    | d => exact ⟨.signed w.toInt32, rfl, fun hne => absurd rfl hne⟩
    | u => exact ⟨.unsigned w, rfl, fun _ h => nomatch h⟩
    | x => exact ⟨.hex w, rfl, fun _ h => nomatch h⟩
    | c => exact ⟨.char w.toUInt8, rfl, fun _ h => nomatch h⟩

theorem eq_nil_of_argsFit {args : List FormatArg} (h : argsFit [] args = true) : args = [] := by
  cases args with
  | nil => rfl
  | cons arg args => exact absurd h Bool.false_ne_true

theorem argsFit_cons {conv : Conversion} {convs : List Conversion} {args : List FormatArg}
    (h : argsFit (conv :: convs) args = true) :
    ∃ arg args', args = arg :: args' ∧ conv.fits arg = true ∧ argsFit convs args' = true := by
  cases args with
  | nil => exact absurd h Bool.false_ne_true
  | cons arg args =>
    obtain ⟨hfits, hrest⟩ := Bool.and_eq_true_iff.mp h
    exact ⟨arg, args, rfl, hfits, hrest⟩

/-- **Arguments that fit make pieces**, by induction on the format, and without a `%d` none of them
is signed. -/
theorem formatPieces_of_fits {fmt : List UInt8} {args : List FormatArg}
    (h : argsFit (conversions fmt) args = true) :
    ∃ pieces, formatPieces fmt args = some pieces ∧
      (Conversion.d ∉ conversions fmt → ∀ p ∈ pieces, p ≠ .signed Int32.minValue) := by
  induction hlen : fmt.length using Nat.strong_induction_on generalizing fmt args with
  | _ n ih =>
    have hnone : ∀ p ∈ ([] : List FormatPiece), p ≠ .signed Int32.minValue :=
      fun p hp => absurd hp List.not_mem_nil
    cases fmt with
    | nil =>
      unfold conversions at h
      rw [eq_nil_of_argsFit h]
      exact ⟨[], rfl, fun _ => hnone⟩
    | cons c fmt =>
      rw [List.length_cons] at hlen
      unfold conversions at h ⊢
      unfold formatPieces
      by_cases hc : c = percent
      · rw [if_pos hc] at h ⊢
        rw [if_pos hc]
        cases fmt with
        | nil =>
          rw [eq_nil_of_argsFit h]
          exact ⟨[], rfl, fun _ => hnone⟩
        | cons k fmt =>
          rw [List.length_cons] at hlen
          dsimp only at h ⊢
          cases hk : conversionOf k with
          | none =>
            rw [hk] at h
            obtain ⟨pieces, hpieces, hunsigned⟩ := ih _ (by omega) h rfl
            refine ⟨.char k :: pieces, ?_, ?_⟩
            · rw [takePiece_of_none hk, Option.bind_some]
              dsimp only
              rw [hpieces]
              rfl
            · intro hd
              exact List.forall_mem_cons.mpr ⟨fun heq => (by cases heq), hunsigned hd⟩
          | some conv =>
            rw [hk] at h
            obtain ⟨arg, args', rfl, hfits, hrest⟩ := argsFit_cons h
            obtain ⟨pieces, hpieces, hunsigned⟩ := ih _ (by omega) hrest rfl
            obtain ⟨piece, htake, hpiece⟩ := takePiece_of_fits hk hfits args'
            refine ⟨piece :: pieces, ?_, ?_⟩
            · rw [htake, Option.bind_some]
              dsimp only
              rw [hpieces]
              rfl
            · intro hd
              have hd' : ¬ (Conversion.d = conv ∨ Conversion.d ∈ conversions fmt) :=
                fun hor => hd (List.mem_cons.mpr hor)
              exact List.forall_mem_cons.mpr
                ⟨hpiece fun heq => hd' (Or.inl heq.symm), hunsigned fun hmem => hd' (Or.inr hmem)⟩
      · rw [if_neg hc] at h ⊢
        rw [if_neg hc]
        obtain ⟨pieces, hpieces, hunsigned⟩ := ih _ (by omega) h rfl
        refine ⟨.char c :: pieces, ?_, ?_⟩
        · rw [hpieces]
          rfl
        · intro hd
          exact List.forall_mem_cons.mpr ⟨fun heq => (by cases heq), hunsigned hd⟩

/-- The text that a call formats. -/
def SnCall.text (call : SnCall) : List UInt8 :=
  formatText ((formatPieces call.fmt.toUTF8.toList call.args).getD [])

theorem SnCall.ksnprintf_eq (call : SnCall) (max : ℤ) :
    ksnprintf max call.fmt.toUTF8.toList call.args =
      some (((call.text.take (max - 1).toNat).length : ℤ),
        call.text.take (max - 1).toNat ++ [0]) := by
  have hfits := call.fits
  rw [← call.convs_eq] at hfits
  obtain ⟨pieces, hpieces, hunsigned⟩ := formatPieces_of_fits hfits
  have hwritten : writtenText pieces = call.text := by
    unfold SnCall.text
    rw [hpieces, Option.getD_some]
    refine (writtenText_eq_iff pieces).mpr (hunsigned ?_)
    rw [call.convs_eq]
    exact call.unsigned
  rw [Microkernel.ksnprintf_eq hpieces, hwritten]

/-- The text of each file. -/
def ProcState.texts : ProcTexts := fun f => (generator s f).flatMap SnCall.text

/-! ## Chains -/

/-- What a chain has put of a text into a buffer of `max` bytes. -/
structure Filled (max : ℤ) (t : List UInt8) (p : ℤ × List UInt8) : Prop where
  pos : p.1 = (t.take (max - 1).toNat).length
  bytes : p.2.take p.1.toNat = t.take (max - 1).toNat
  room : (p.2.length : ℤ) ≤ max

variable {max : ℤ} {t : List UInt8} {p : ℤ × List UInt8}

theorem Filled.lt (h : Filled max t p) (hmax : 1 ≤ max) : 0 ≤ p.1 ∧ p.1 < max := by
  rw [h.pos, List.length_take]
  omega

/-- **A call of a chain** goes on where the calls before it stopped. -/
theorem Filled.run (h : Filled max t p) (hmax : 1 ≤ max) (call : SnCall) :
    ∃ q, call.run max p = some q ∧ Filled max (t ++ call.text) q := by
  have hroom : (max - p.1 - 1).toNat = (max - 1).toNat - (t.take (max - 1).toNat).length := by
    rw [h.pos]
    omega
  unfold SnCall.run
  rw [call.ksnprintf_eq, Option.map_some, h.bytes, hroom]
  have happ : t.take (max - 1).toNat ++
      call.text.take ((max - 1).toNat - (t.take (max - 1).toNat).length) =
        (t ++ call.text).take (max - 1).toNat := take_append_take t call.text
  generalize hw : call.text.take ((max - 1).toNat - (t.take (max - 1).toNat).length) = w at happ ⊢
  have hpos : p.1 + w.length = ((t ++ call.text).take (max - 1).toNat).length := by
    rw [← happ, List.length_append, h.pos]
    push_cast
    rfl
  refine ⟨_, rfl, hpos, ?_, ?_⟩
  · dsimp only
    rw [hpos, Int.toNat_natCast, ← List.append_assoc, happ, List.take_left]
  · dsimp only
    rw [← List.append_assoc, happ, List.length_append, List.length_singleton, List.length_take]
    omega

/-- **A chain of calls writes the text of all of them**, cut to what fits. -/
theorem Filled.runCalls (h : Filled max t p) (hmax : 1 ≤ max) (calls : List SnCall) :
    ∃ q, runCalls max calls p = some q ∧ Filled max (t ++ calls.flatMap SnCall.text) q := by
  induction calls generalizing t p with
  | nil =>
    rw [List.flatMap_nil, List.append_nil]
    exact ⟨p, rfl, h⟩
  | cons call calls ih =>
    obtain ⟨q, hq, hfilled⟩ := h.run hmax call
    obtain ⟨r, hr, hfilled⟩ := ih hfilled
    refine ⟨r, ?_, ?_⟩
    · rw [Microkernel.runCalls, hq, Option.bind_some, hr]
    · rw [List.flatMap_cons, ← List.append_assoc]
      exact hfilled

theorem filled_start (hmax : 1 ≤ max) : Filled max [] (0, []) :=
  ⟨by rw [List.take_nil]; rfl, by rw [List.take_nil, List.take_nil], by rw [List.length_nil]; omega⟩

/-- **A generator makes the text of its file**, cut to one byte less than the room there is. -/
theorem generator_generates (f : ProcFile) (hmax : 1 ≤ max) :
    ∃ q, runCalls max (generator s f) (0, []) = some q ∧
      q.2.take q.1.toNat = generate s.texts f max.toNat := by
  obtain ⟨q, hq, hfilled⟩ := (filled_start hmax).runCalls hmax (generator s f)
  refine ⟨q, hq, ?_⟩
  rw [hfilled.bytes, List.nil_append]
  unfold generate ProcState.texts
  congr 1
  omega

/-- `%d` and a `%%` behind it. -/
def percentFormat : List UInt8 := [0x25, 0x64, 0x25, 0x25]

end Microkernel
