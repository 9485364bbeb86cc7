import Dmaos.Memory.Table

/-!
# Processes and their address spaces

Process creation, `sbrk`, exit and reaping, with memory.  The state is that of
the file system and the process table (`Kernel.Run`), physical memory, and the
fields of `struct Process` that are about memory.  The functions are those of
`Kernel.Run`, with the steps on pages at their places between the others.

The kernel writes the arguments of a program into memory with pointers of its
own.  `create_process` is parameterised by that step, so that what it does to
memory can be studied by itself.

A program stores to memory between its calls, through its page table.  A store
that the table does not allow is a trap, and the program is ended.
-/

namespace Dmaos

/-- `USER_BASE`. -/
def USER_BASE : Nat := 0x1000000

/-- `VIRTIO_BLK0_PADDR`. -/
def VIRTIO_BLK0_PADDR : Nat := 0x10001000
/-- `VIRTIO_BLK1_PADDR`. -/
def VIRTIO_BLK1_PADDR : Nat := 0x10002000
/-- `VIRTIO_INPUT_PADDR`. -/
def VIRTIO_INPUT_PADDR : Nat := 0x10003000

/-- `align_up(value, PAGE_SIZE)`. -/
def alignUp (value : Nat) : Nat := (value + PAGE_SIZE - 1) / PAGE_SIZE * PAGE_SIZE

/-- `struct Process`, the memory map and what the program starts with. -/
structure Space where
  /-- `page_table`, `none` for `NULL`. -/
  pageTable : Option Nat
  heapStart : Nat
  heapEnd : Nat
  /-- The stack pointer and `argv` at the start. -/
  userSp : Nat
  argc : Nat

/-- The kernel, its memory and the memory maps of the processes. -/
structure Machine where
  k : KState
  mem : Mem
  space : Fin PROCS_MAX → Space

/-- `procs[p]`, the fields about memory, is set. -/
def Machine.putSpace (s : Machine) (p : Fin PROCS_MAX) (sp : Space) : Machine :=
  { s with space := Function.update s.space p sp }

/-- Kernel code that works on everything. -/
abbrev Mach := EStateM Crash Machine

/-- A step of the file system or the process table. -/
def onKern {α : Type} (x : Kern α) : Mach α := fun s =>
  match x s.k with
  | .ok a k => .ok a { s with k := k }
  | .error e k => .error (.kern e) { s with k := k }

/-- A step on pages. -/
def onMem {α : Type} (x : Pg α) : Mach α := fun s =>
  match x s.mem with
  | .ok a m => .ok a { s with mem := m }
  | .error e m => .error e { s with mem := m }

namespace Machine

/-! ## Address spaces -/

/-- The loop of `create_process` that maps the pages of the kernel to
themselves: `n` pages from `paddr` on. -/
def mapKernel (R : Ram) (t1 : Nat) : Nat → Nat → Pg Unit
  | 0, _ => return ()
  | n + 1, paddr => do
    mapPage R t1 paddr paddr (PAGE_R ||| PAGE_W ||| PAGE_X)
    mapKernel R t1 n (paddr + PAGE_SIZE)

/-- The pages of the three devices. -/
def mapDevices (R : Ram) (t1 : Nat) : Pg Unit := do
  mapPage R t1 VIRTIO_BLK0_PADDR VIRTIO_BLK0_PADDR (PAGE_R ||| PAGE_W)
  mapPage R t1 VIRTIO_BLK1_PADDR VIRTIO_BLK1_PADDR (PAGE_R ||| PAGE_W)
  mapPage R t1 VIRTIO_INPUT_PADDR VIRTIO_INPUT_PADDR (PAGE_R ||| PAGE_W)

/-- The pages from `__kernel_base` to `__free_ram_end`. -/
def kernelPages (R : Ram) : Nat := (R.stop - kernelBase) / PAGE_SIZE

/-- A page table with what every process has in it. -/
def newTable (R : Ram) : Pg Nat := do
  let t1 ← allocPages R 1
  mapKernel R t1 (kernelPages R) kernelBase
  mapDevices R t1
  return t1

/-! ## Programs -/

/-- What `create_process` is given to run: nothing (the idle process), an
image in memory, or the words of a command line, the first of which names the
program. -/
inductive Exec where
  | idle
  | image (data : Buf) (size : Nat)
  | named (name : List Byte) (args : List (List Byte))

/-- The program, as the file system sees it. -/
def Exec.program : Exec → Program
  | .idle => .idle
  | .image _ _ => .image
  | .named name _ => .named name

/-- `argv`. -/
def Exec.argv : Exec → List (List Byte)
  | .named name args => name :: args
  | _ => []

/-- Where the bytes of a program come from. -/
inductive Source where
  | nothing
  | memory (data : Buf)
  | inode (ip : Fin NINODE)

/-- The source of a program and its size.  `none` when the name does not resolve. -/
def openProgram : Exec → Kern (Option (Source × Nat))
  | .idle => return some (.nothing, 0)
  | .image data size => return some (.memory data, size)
  | .named name _ => do
    match ← namei name with
    | none => return none
    | some ip =>
      ilock ip
      let I ← inodeAt ip
      return some (.inode ip, I.dinode.size)

/-- `n` bytes of a program from `off` on. -/
def Source.fetch : Source → Nat → Nat → Kern (List Byte)
  | .nothing, _, _ => return []
  | .memory data, off, n => return data.slice off n
  | .inode ip, off, n => do
    let (_, bytes) ← readi ip off n
    return bytes

/-- The source is not needed any more. -/
def Source.close : Source → Kern Unit
  | .inode ip => iput ip
  | _ => return ()

/-- Bytes are stored in memory. -/
def storeBytes (addr : Nat) (bytes : List Byte) : Pg Unit := fun m =>
  .ok () { m with ram := m.ram.copy addr (Buf.ofList bytes) bytes.length }

/-- The loop of `create_process` that loads the program, page by page.
Returns the last page. -/
def loadPages (R : Ram) (src : Source) (t1 size : Nat) : Nat → Nat → Nat → Mach Nat
  | 0, _, last => return last
  | k + 1, off, last => do
    if size ≤ off then return last
    else
      let page ← onMem (allocPages R 1)
      let bytes ← onKern (src.fetch off (min PAGE_SIZE (size - off)))
      onMem (storeBytes page bytes)
      onMem (mapPage R t1 ((USER_BASE + off) % 2 ^ 32) page
        (PAGE_U ||| PAGE_R ||| PAGE_W ||| PAGE_X))
      loadPages R src t1 size k (off + PAGE_SIZE) (if size ≤ off + PAGE_SIZE then page else last)

/-! ## Arguments -/

/-- How the arguments of a program of `size` bytes, whose last page is `last`,
are stored.  Returns the stack pointer of the program. -/
abbrev ArgCopy := Nat → Nat → List (List Byte) → Pg Nat

/-- The offset in the last page at which the arguments end. -/
def stackTop (size : Nat) : Nat := if size % PAGE_SIZE = 0 then PAGE_SIZE else size % PAGE_SIZE

/-- The loop over the strings: they are stored below `sp`, the last one first.
Returns where they start and the addresses the program sees them at. -/
def pushStrings (size top : Nat) : List (List Byte) → Nat → Pg (Nat × List Nat)
  | [], sp => return (sp, [])
  | arg :: args, sp => do
    let (sp, vas) ← pushStrings size top args sp
    let sp := sp - (arg.length + 1)
    storeBytes sp (arg ++ [0])
    return (sp, (USER_BASE + size - (top - sp)) :: vas)

/-- Words are stored one after the other. -/
def storeWords : Nat → List Nat → Pg Unit
  | _, [] => return ()
  | addr, w :: ws => do
    store addr w
    storeWords (addr + 4) ws

/-- The arguments are copied to the stack of the program: the strings, and
below them the array of pointers to them. -/
def copyArguments : ArgCopy := fun last size argv => do
  let top := last + stackTop size
  let (sp, vas) ← pushStrings size top argv top
  let sp := sp / 16 * 16 - (argv.length + 1) * 4
  storeWords sp (vas ++ [0])
  return USER_BASE + size - (top - sp)

/-- No arguments are copied. -/
def noArguments : ArgCopy := fun _ size _ => return USER_BASE + size

/-- The arguments are stored if there are some and there is a page for them. -/
def placeArguments (copy : ArgCopy) (last size : Nat) (argv : List (List Byte)) : Pg Nat :=
  if argv ≠ [] ∧ last ≠ 0 then copy last size argv else return USER_BASE + size

/-! ## Processes -/

section Processes

variable (R : Ram) (copy : ArgCopy)

/-- The memory map of a new process, with an empty heap after its image. -/
def newSpace (t1 size sp argc : Nat) : Space where
  pageTable := some t1
  heapStart := USER_BASE + alignUp size
  heapEnd := USER_BASE + alignUp size
  userSp := sp
  argc := argc

/-- The first steps of `create_process`: the slot gets its descriptors and its
working directory. -/
def prepareProc (prog : Program) (p : Fin PROCS_MAX) : Kern Unit := do
  modify fun s => s.putProc p { s.procs p with ofile := fun _ => none }
  openConsole prog p
  let cwd ← inheritCwd
  modify fun s => s.putProc p { s.procs p with cwd := some cwd, cwdPath := inheritCwdPath s }

/-- `create_process`. -/
def createProcess (prog : Exec) : Mach (Option (Fin PROCS_MAX)) := do
  let s ← get
  match findProc s.k with
  | none => throw (.kern .procs)
  | some p =>
    onKern (prepareProc prog.program p)
    let t1 ← onMem (newTable R)
    match ← onKern (openProgram prog) with
    | none =>
      onMem (freePages R t1 1)
      return none
    | some (src, size) =>
      let last ← loadPages R src t1 size (size / PAGE_SIZE + 1) 0 0
      onKern src.close
      let sp ← onMem (placeArguments copy last size prog.argv)
      onKern (modify fun s => s.putProc p
        { s.procs p with pid := (p : Nat) + 1, state := .runnable })
      modify fun s => s.putSpace p (newSpace t1 size sp prog.argv.length)
      return some p

/-- The words of a command line, `n` at most. -/
def splitWords : Nat → List Byte → List (List Byte)
  | 0, _ => []
  | n + 1, l =>
    if l.dropWhile (· = 0x20) = [] then []
    else (l.dropWhile (· = 0x20)).takeWhile (· ≠ 0x20) ::
      splitWords n (((l.dropWhile (· = 0x20)).dropWhile (· ≠ 0x20)).drop 1)

/-- `spawn_process`. -/
def spawnProcess (cmdline : List Byte) : Mach Int := do
  match splitWords 16 (cmdline.take 127) with
  | [] => return -1
  | name :: args =>
    match ← createProcess R copy (.named name args) with
    | none => return -1
    | some p =>
      let s ← get
      return (s.k.procs p).pid

/-- The inner loop of `free_process_pages`, over the entries of a second-level
table. -/
def freeLeaves (t0 : Nat) : List Nat → Pg Unit
  | [] => return ()
  | v :: vs => do
    let entry ← load (t0 + 4 * v)
    if hasFlag entry PAGE_V ∧ R.start ≤ pteAddr entry ∧ pteAddr entry < R.stop then
      freePages R (pteAddr entry) 1
      freeLeaves t0 vs
    else freeLeaves t0 vs

/-- The loop of `free_process_pages` over the entries of the first-level table. -/
def freeTables (t1 : Nat) : List Nat → Pg Unit
  | [] => return ()
  | v :: vs => do
    let entry ← load (t1 + 4 * v)
    if hasFlag entry PAGE_V then
      if v < 512 then freeLeaves R (pteAddr entry) (List.range 1024)
      freePages R (pteAddr entry) 1
      freeTables t1 vs
    else freeTables t1 vs

/-- `free_process_pages`. -/
def freeProcessPages (p : Fin PROCS_MAX) : Mach Unit := do
  onKern (dropCwd p)
  onKern (closeAll p (List.finRange NUM_FILES_PER_PROCESS))
  let s ← get
  match (s.space p).pageTable with
  | none => return ()
  | some t1 =>
    onMem (freeTables R t1 (List.range 1024))
    onMem (freePages R t1 1)
    modify fun s => s.putSpace p { s.space p with pageTable := none }

/-- One turn of the loop of `wait_process`. -/
def waitProcess (pid : Int) : Mach Int := do
  let s ← get
  match findPid s.k pid with
  | none => return -1
  | some p =>
    if (s.k.procs p).state = .exited then
      freeProcessPages R p
      onKern (modify fun s => s.putProc p { s.procs p with state := .unused })
      return 0
    else return 0

/-! ## The heap -/

/-- The loop of `SYSCALL_SBRK` that takes pages away: `n` pages from `va` on. -/
def unmapPages (t1 : Nat) : Nat → Nat → Pg Unit
  | 0, _ => return ()
  | n + 1, va => do
    let entry1 ← load (t1 + 4 * vpn1 va)
    if hasFlag entry1 PAGE_V then
      let t0 := pteAddr entry1
      let entry0 ← load (t0 + 4 * vpn0 va)
      if hasFlag entry0 PAGE_V then
        freePages R (pteAddr entry0) 1
        store (t0 + 4 * vpn0 va) 0
    unmapPages t1 n (va + PAGE_SIZE)

/-- The loop that adds pages.  Did it get them all? -/
def addPages (t1 : Nat) : Nat → Nat → Pg Bool
  | 0, _ => return true
  | n + 1, va => do
    let page ← allocPages R 1
    if page = 0 then return false
    else
      mapPage R t1 va page (PAGE_U ||| PAGE_R ||| PAGE_W)
      addPages t1 n (va + PAGE_SIZE)

/-- The number of pages between two ends of the heap. -/
def pagesBetween (lo hi : Nat) : Nat := (alignUp hi - alignUp lo) / PAGE_SIZE

/-- The heap of process `p` ends at `brk`. -/
def setBrk (p : Fin PROCS_MAX) (brk : Nat) : Mach Unit :=
  modify fun s => s.putSpace p { s.space p with heapEnd := brk }

/-- `SYSCALL_SBRK`.  `increment` is a signed 32-bit number. -/
def sbrk (increment : Int) : Mach Int := do
  let p ← onKern currentProcess
  let s ← get
  let oldBrk := (s.space p).heapEnd
  let newBrk := ((oldBrk + increment) % 2 ^ 32).toNat
  let t1 := (s.space p).pageTable.getD 0
  if increment < 0 then
    if newBrk < (s.space p).heapStart ∨ oldBrk < newBrk then return -1
    else
      onMem (unmapPages R t1 (pagesBetween newBrk oldBrk) (alignUp newBrk))
      setBrk p newBrk
      return oldBrk
  else if 0 < increment then
    if newBrk < oldBrk ∨ 0x80000000 ≤ newBrk then return -1
    else if ← onMem (addPages R t1 (pagesBetween oldBrk newBrk) (alignUp oldBrk)) then
      setBrk p newBrk
      return oldBrk
    else return -1
  else return oldBrk

/-! ## Programs at work -/

/-- The address an access of a program to `vaddr` goes to, if it may store there. -/
def storeTarget (m : Mem) (t1 vaddr : Nat) : Option Nat :=
  match walk m.ram t1 vaddr with
  | some (page, flags) =>
    if hasFlag flags PAGE_U ∧ hasFlag flags PAGE_W then some (page + vaddr % PAGE_SIZE) else none
  | none => none

/-- The program of the current process stores a byte.  If it may not, it is ended. -/
def userStore (vaddr : Nat) (b : Byte) : Mach Int := do
  let p ← onKern currentProcess
  let s ← get
  match storeTarget s.mem ((s.space p).pageTable.getD 0) vaddr with
  | some addr =>
    onMem (storeBytes addr [b])
    return 0
  | none =>
    onKern exitCurrentProcess
    return 0

/-- What a process can do. -/
inductive Action where
  | call (c : Syscall)
  | sbrk (increment : Int)
  | store (vaddr : Nat) (b : Byte)

/-- `handle_syscall`, and the stores in between. -/
def act : Action → Mach Int
  | .call (.spawn cmdline) => spawnProcess R copy cmdline.1
  | .call (.wait pid) => waitProcess R pid
  | .call c => onKern (handleSyscall c)
  | .sbrk increment => sbrk R increment
  | .store vaddr b => userStore vaddr b

/-- Process `p` gets the processor and does something. -/
def step (p : Fin PROCS_MAX) (a : Action) : Mach Int := do
  let s ← get
  if (s.k.procs p).state = .runnable then
    onKern (modify fun s => { s with current := some p })
    act R copy a
  else throw (.kern .notRunnable)

end Processes

/-! ## Boot -/

/-- The pages of the drivers: a queue and a request for each of the two block
devices, a queue and the events for the input device. -/
def deviceBuffers (R : Ram) : Pg Unit := do
  let _ ← allocPages R 2
  let _ ← allocPages R 1
  let _ ← allocPages R 2
  let _ ← allocPages R 1
  let _ ← allocPages R 2
  let _ ← allocPages R 1

/-- What the machine starts from: two disks, the memory and the shell. -/
structure Hardware where
  d0 : Device
  d1 : Device
  ram : Buf
  shell : Buf
  shellSize : Nat

/-- The machine when the kernel starts. -/
def cold (hw : Hardware) : Machine where
  k := coldState hw.d0 hw.d1
  mem := { ram := hw.ram, allocated := fun _ => false }
  space := fun _ => { pageTable := none, heapStart := 0, heapEnd := 0, userSp := 0, argc := 0 }

/-- `kmain` up to the first `yield`. -/
def boot (R : Ram) (copy : ArgCopy) (hw : Hardware) : Mach Unit := do
  onMem (deviceBuffers R)
  onKern fsInit
  match ← createProcess R copy .idle with
  | none => throw (.kern .procs)
  | some p =>
    onKern (modify fun s =>
      { s.putProc p { s.procs p with pid := 0 } with current := some p })
    let _ ← createProcess R copy (.image hw.shell hw.shellSize)
    return ()

/-- What a step of a run is: who did what, in which state, and what came back. -/
abbrev Cond := Fin PROCS_MAX → Action → Machine → Int → Prop

/-- A state reached from boot by steps that meet the condition `P`. -/
inductive Reached (R : Ram) (copy : ArgCopy) (hw : Hardware) (P : Cond) : Machine → Prop where
  | boot {u : Unit} {s : Machine} (run : boot R copy hw (cold hw) = .ok u s) : Reached R copy hw P s
  | step {p : Fin PROCS_MAX} {a : Action} {r : Int} {s s' : Machine}
      (before : Reached R copy hw P s) (cond : P p a s r)
      (run : step R copy p a s = .ok r s') : Reached R copy hw P s'

end Machine

end Dmaos
