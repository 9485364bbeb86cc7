import Dmaos.Kernel.File

/-!
# Processes, system calls and runs

What process creation, exit and reaping do to the tables of the file system,
the system calls a process can make, boot, and runs.

The scheduler is cooperative: a process keeps the processor until its call
yields, so calls of different processes interleave but do not overlap.  A run
makes one call after the other (`Reached`).  Any process that can run may make
the next one, which covers every schedule.

`create_process` also builds an address space and copies the program into it.
That part touches none of the tables here and is left out, except that the
program is read from its file.
-/

namespace Dmaos

/-! ## Processes -/

/-- Bytes of a page. -/
def PAGE_SIZE : Nat := 4096

/-- The loop of `create_process` that reads the program, page by page. -/
def loadImage (ip : Fin NINODE) (size : Nat) : Nat → Nat → Kern Unit
  | 0, _ => return ()
  | k + 1, off => do
    if size ≤ off then return ()
    else
      let _ ← readi ip off (min PAGE_SIZE (size - off))
      loadImage ip size k (off + PAGE_SIZE)

/-- The first free slot of the process table. -/
def findProc (s : KState) : Option (Fin PROCS_MAX) :=
  (List.finRange PROCS_MAX).find? fun i => (s.procs i).state == .unused

/-- `if (f) file_close(f)`. -/
def fileCloseOpt : Option (Fin GLOBAL_OPEN_FILE_LIMIT) → Kern Unit
  | none => return ()
  | some f => fileClose f

/-- The three console descriptors of a new process, or none of them. -/
def consoleFiles : Kern (Fin NUM_FILES_PER_PROCESS → Option (Fin GLOBAL_OPEN_FILE_LIMIT)) := do
  let f0 ← fileCreate .console FILECTRL_READONLY
  let f1 ← fileCreate .console FILECTRL_WRITEONLY
  let f2 ← fileCreate .console FILECTRL_WRITEONLY
  match f0, f1, f2 with
  | some f0, some f1, some f2 =>
    return fun fd =>
      if fd = 0 then some f0 else if fd = 1 then some f1 else if fd = 2 then some f2 else none
  | _, _, _ =>
    fileCloseOpt f0
    fileCloseOpt f1
    fileCloseOpt f2
    return fun _ => none

/-- What `create_process` is given to run: nothing (the idle process), an
image in memory, or the name of a program. -/
inductive Program where
  | idle
  | image
  | named (path : List Byte)

/-- The descriptors of a new process; the idle process has none. -/
def openConsole (prog : Program) (p : Fin PROCS_MAX) : Kern Unit :=
  match prog with
  | .idle => return ()
  | _ => do
    let ofile ← consoleFiles
    modify fun s => s.putProc p { s.procs p with ofile := ofile }

/-- The working directory a new process gets. -/
def inheritCwd : Kern (Fin NINODE) := do
  let s ← get
  match s.current.bind (fun p => (s.procs p).cwd) with
  | some cwd => iget (s.inodeTable cwd).dev (s.inodeTable cwd).inum
  | none => iget 0 1

/-- The string for it. -/
def inheritCwdPath (s : KState) : List Byte :=
  match s.current with
  | some p => if (s.procs p).cwd = none then [slash] else (s.procs p).cwdPath.take (MAX_PATH - 1)
  | none => [slash]

/-- Read the named program.  `false` when the name does not resolve. -/
def loadProgram : Program → Kern Bool
  | .named path => do
    match ← namei path with
    | none => return false
    | some ip =>
      ilock ip
      let I ← inodeAt ip
      loadImage ip I.dinode.size (I.dinode.size / PAGE_SIZE + 1) 0
      iput ip
      return true
  | _ => return true

/-- `create_process`.  When the program is not found the slot stays unused;
what was stored in it, and the references taken, stay as well. -/
def createProcess (prog : Program) : Kern (Option (Fin PROCS_MAX)) := do
  let s ← get
  match findProc s with
  | none => throw .procs
  | some p =>
    modify fun s => s.putProc p { s.procs p with ofile := fun _ => none }
    openConsole prog p
    let cwd ← inheritCwd
    modify fun s => s.putProc p { s.procs p with cwd := some cwd, cwdPath := inheritCwdPath s }
    if ← loadProgram prog then
      modify fun s => s.putProc p
        { s.procs p with pid := (p : Nat) + 1, state := .runnable }
      return some p
    else return none

/-- The first word of a command line, as `spawn_process` splits it. -/
def firstWord (cmdline : List Byte) : List Byte :=
  ((cmdline.take 127).dropWhile (· = 0x20)).takeWhile (· ≠ 0x20)

/-- `spawn_process`. -/
def spawnProcess (cmdline : List Byte) : Kern Int := do
  if firstWord cmdline = [] then return -1
  else
    match ← createProcess (.named (firstWord cmdline)) with
    | none => return -1
    | some p =>
      let s ← get
      return (s.procs p).pid

/-- `exit_current_process`. -/
def exitCurrentProcess : Kern Unit := do
  let p ← currentProcess
  modify fun s => s.putProc p { s.procs p with state := .exited }

/-- The loop of `free_process_pages` over the descriptors. -/
def closeAll (p : Fin PROCS_MAX) : List (Fin NUM_FILES_PER_PROCESS) → Kern Unit
  | [] => return ()
  | fd :: fds => do
    let s ← get
    match (s.procs p).ofile fd with
    | none => closeAll p fds
    | some f =>
      fileClose f
      modify fun s => s.putProc p
        { s.procs p with ofile := Function.update (s.procs p).ofile fd none }
      closeAll p fds

/-- The start of `free_process_pages`: the working directory is given back. -/
def dropCwd (p : Fin PROCS_MAX) : Kern Unit := do
  let s ← get
  match (s.procs p).cwd with
  | some cwd =>
    iput cwd
    modify fun s => s.putProc p { s.procs p with cwd := none }
  | none => return ()

/-- `free_process_pages`, the part about files, and the slot made free. -/
def reap (p : Fin PROCS_MAX) : Kern Unit := do
  dropCwd p
  closeAll p (List.finRange NUM_FILES_PER_PROCESS)
  modify fun s => s.putProc p { s.procs p with state := .unused }

/-- The process `wait_process` finds. -/
def findPid (s : KState) (pid : Int) : Option (Fin PROCS_MAX) :=
  (List.finRange PROCS_MAX).find? fun i => (s.procs i).state != .unused && (s.procs i).pid == pid

/-- One turn of the loop of `wait_process`: it reaps a process that has
exited, and otherwise gives up the processor. -/
def waitProcess (pid : Int) : Kern Int := do
  let s ← get
  match findPid s pid with
  | none => return -1
  | some p =>
    if (s.procs p).state = .exited then
      reap p
      return 0
    else return 0

/-! ## System calls -/

/-- The system calls, with the arguments the kernel has validated. -/
inductive Syscall where
  | open (path : CString) (flags : Nat)
  | read (fd n : Int)
  | write (fd : Int) (buf : Buf) (n : Int)
  | close (fd : Int)
  | lseek (fd offset whence : Int)
  | ftruncate (fd length : Int)
  | getFileName (index bufLen : Int)
  | getFileSize (index : Int)
  | stat (path : CString)
  | chdir (path : CString)
  | mkdir (path : CString)
  | rm (path : CString)
  | spawn (cmdline : CString)
  | exit
  | wait (pid : Int)
  /-- The calls that touch no table of the file system: `putchar`, `getchar`,
  `yield`, `kmesg`, `getcwd`, `sbrk`, `present_framebuffer`, `input_poll`. -/
  | other

/-- The string of the working directory after a change to `path`. -/
def setCwdPath (p : Fin PROCS_MAX) (path : List Byte) : Kern Unit := do
  let s ← get
  let newPath ← fsNormalizePath (s.procs p).cwdPath path MAX_PATH
  modify fun s => s.putProc p { s.procs p with cwdPath := newPath.take (MAX_PATH - 1) }

/-- `SYSCALL_CHDIR`: the old working directory is given back. -/
def sysChdir (path : List Byte) : Kern Int := do
  let (r, ip) ← fsChdir path
  match ip with
  | none => return r
  | some ip =>
    let p ← currentProcess
    setCwdPath p path
    dropCwd p
    modify fun s => s.putProc p { s.procs p with cwd := some ip }
    return 0

/-- `handle_syscall`, after the pointers are validated. -/
def handleSyscall : Syscall → Kern Int
  | .open path flags =>
    if hasFlag flags FILECTRL_CREATE then fsCreate path.1 flags else fsOpen path.1 flags
  | .read fd n => do
    if n ≤ 0 then return ERR_INVALID_ARGUMENT
    else
      let (r, _) ← fsRead fd n
      return r
  | .write fd buf n => fsWrite fd buf n
  | .close fd => fsClose fd
  | .lseek fd offset whence => fsLseek fd offset whence
  | .ftruncate fd length => fsFtruncate fd length
  | .getFileName index bufLen => do
    if bufLen ≤ 0 then return ERR_INVALID_ARGUMENT
    else
      -- Only the name depends on what lies behind the entry.
      let (r, _) ← fsGetFileName index bufLen []
      return r
  | .getFileSize index => fsGetFileSize index
  | .stat path => do
    let (r, _) ← fsStat path.1
    return r
  | .chdir path => sysChdir path.1
  | .mkdir path => fsMkdir path.1
  | .rm path => fsRm path.1
  | .spawn cmdline => spawnProcess cmdline.1
  | .exit => do
    exitCurrentProcess
    return 0
  | .wait pid => waitProcess pid
  | .other => return 0

/-- Process `p` gets the processor and makes a call. -/
def step (p : Fin PROCS_MAX) (c : Syscall) : Kern Int := do
  let s ← get
  if (s.procs p).state = .runnable then
    modify fun s => { s with current := some p }
    handleSyscall c
  else throw .notRunnable

/-! ## Boot -/

/-- The tables when the kernel starts. -/
def coldState (d0 d1 : Device) : KState where
  disk := fun dev => if dev = 0 then d0 else d1
  sb := fun _ => Superblock.ofBuf Buf.zero
  inodeTable := fun _ => { dev := 0, inum := 0, ref := 0, valid := false, dinode := Buf.zero }
  mounts := []
  fileTable := fun _ =>
    { ref := 0, type := .none, readable := false, writable := false, ip := none, off := 0 }
  procs := fun _ =>
    { pid := 0, state := .unused, cwd := none, cwdPath := [], ofile := fun _ => none }
  current := none
  writes := []

/-- `XV6_FS_MAGIC`. -/
def XV6_FS_MAGIC : Nat := 0x10203040

/-- The superblock of one device is read and checked. -/
def readSuperblock (dev : Nat) : Kern Unit := do
  let buf ← readBlock dev 1
  modify fun s => { s with sb := Function.update s.sb dev (Superblock.ofBuf buf) }
  if (Superblock.ofBuf buf).magic = XV6_FS_MAGIC then return () else throw (.magic dev)

/-- The path `"/home"`. -/
def homePath : List Byte := [0x2f, 0x68, 0x6f, 0x6d, 0x65]

/-- `fs_init`. -/
def fsInit : Kern Unit := do
  readSuperblock 0
  readSuperblock 1
  match ← namei homePath with
  | none => throw .mountpoint
  | some ip =>
    let I ← inodeAt ip
    modify fun s => { s with mounts := [⟨I.dev, I.inum, 1⟩] }
    iput ip

/-- `kmain` up to the first `yield`: the file system, the idle process and the
shell. -/
def boot : Kern Unit := do
  fsInit
  match ← createProcess .idle with
  | none => throw .procs
  | some p =>
    modify fun s => { s.putProc p { s.procs p with pid := 0 } with current := some p }
    let _ ← createProcess .image
    return ()

end Dmaos
