import Dmaos.Refine.Cache
import Dmaos.Kernel.Run

/-!
# What the functions of the kernel can change, and how they can stop

The code of the kernel is put together from a few accesses to its state:
`ilock` reads an inode into its slot, `iget` and `iput` count references, and the
rest are stores into a block, a slot, an open file or a process.  A relation that
allows some of these bounds every function that makes no other
(`Confined.readi`, `Confined.namex` and so on), and the errors such a function
can stop with are those it throws itself.

The errors come in three kinds.  Two tell of a reference count that is wrong, one
of an access outside a buffer, and all others are `Plain`.
-/

namespace Dmaos

open Fault

variable {s s' : KState} {ip : Fin NINODE} {f : Fin GLOBAL_OPEN_FILE_LIMIT} {p : Fin PROCS_MAX}
  {prog : Program} {b inum bn n off size type i table : Nat} {fd index : Int} {parent : Bool}
  {c : Syscall}

/-! ## Changes -/

/-- Changes that `ilock` may make. -/
class Fetching (R : KState → KState → Prop) : Prop extends IsPreorder KState R where
  fetch : ∀ (s : KState) (ip : Fin NINODE), R s (s.putInode ip (s.fetched ip))

/-- Changes that `iget` and `iput` may make, too. -/
class Counting (R : KState → KState → Prop) : Prop extends Fetching R where
  iget : ∀ (dev inum : Nat) (s : KState), R s (final (iget dev inum s))
  iput : ∀ (ip : Fin NINODE) (s : KState), R s (final (iput ip s))

/-- All changes of blocks, slots and open files. -/
class Storing (R : KState → KState → Prop) : Prop extends IsPreorder KState R where
  putBlock : ∀ {s : KState} {dev b : Nat} {buf : Buf}, R s (s.putBlock dev b buf)
  putInode : ∀ {s : KState} {ip : Fin NINODE} {I : Inode}, R s (s.putInode ip I)
  putFile : ∀ {s : KState} {f : Fin GLOBAL_OPEN_FILE_LIMIT} {F : File}, R s (s.putFile f F)

/-- The entry of a process may change as well, but not its number and its state. -/
class Tasking (R : KState → KState → Prop) : Prop extends Storing R where
  putProc : ∀ {s : KState} {p : Fin PROCS_MAX} {Q : Process}, Q.pid = (s.procs p).pid →
    Q.state = (s.procs p).state → R s (s.putProc p Q)

/-- Those may change, too. -/
class Forking (R : KState → KState → Prop) : Prop extends Storing R where
  setProc : ∀ {s : KState} {p : Fin PROCS_MAX} {Q : Process}, R s (s.putProc p Q)

instance {R : KState → KState → Prop} [Forking R] : Tasking R := ⟨fun _ _ => Forking.setProc⟩

instance {R : KState → KState → Prop} [Storing R] : Counting R where
  fetch _ _ := Storing.putInode
  iget dev inum s := by
    unfold iget
    split
    · exact Storing.putInode
    · split
      · exact Storing.putInode
      · exact refl_of R s
  iput ip s := by
    unfold iput
    split_ifs
    · exact refl_of R s
    · exact Storing.putInode

/-- The devices have the sizes they had, the same processes are there, in the same
states, and the same one has the processor. -/
structure Steady (s s' : KState) : Prop where
  capacity : ∀ d, (s'.disk d).capacity = (s.disk d).capacity
  pid : ∀ p, (s'.procs p).pid = (s.procs p).pid
  state : ∀ p, (s'.procs p).state = (s.procs p).state
  current : s'.current = s.current

instance : IsPreorder KState Steady where
  refl _ := ⟨fun _ => rfl, fun _ => rfl, fun _ => rfl, rfl⟩
  trans _ _ _ h₁ h₂ :=
    { capacity := fun d => (h₂.capacity d).trans (h₁.capacity d)
      pid := fun p => (h₂.pid p).trans (h₁.pid p)
      state := fun p => (h₂.state p).trans (h₁.state p)
      current := h₂.current.trans h₁.current }

instance : Tasking Steady where
  putBlock {s dev b buf} := by
    refine ⟨fun d => ?_, fun _ => rfl, fun _ => rfl, rfl⟩
    cases Decidable.em (d = dev) with
    | inl h => subst h; simp [KState.putBlock]
    | inr h => rw [KState.putBlock_disk_of_ne h]
  putInode := ⟨fun _ => rfl, fun _ => rfl, fun _ => rfl, rfl⟩
  putFile := ⟨fun _ => rfl, fun _ => rfl, fun _ => rfl, rfl⟩
  putProc {s p Q} hpid hstate := by
    have hprocs : ∀ q, (s.putProc p Q).procs q = if q = p then Q else s.procs q :=
      fun q => Function.update_apply ..
    refine ⟨fun _ => rfl, fun q => ?_, fun q => ?_, rfl⟩
    · rw [hprocs]
      split_ifs with hq
      · rw [hpid, hq]
      · rfl
    · rw [hprocs]
      split_ifs with hq
      · rw [hstate, hq]
      · rfl

theorem Steady.of_ok {α : Type} {x : Kern α} {a : α} (h : Within Steady x)
    (hx : x s = .ok a s') : Steady s s' := Confined.of_ok h hx

/-- The devices have the sizes they had, and the same process has the processor. -/
structure Sized (s s' : KState) : Prop where
  capacity : ∀ d, (s'.disk d).capacity = (s.disk d).capacity
  current : s'.current = s.current

theorem Steady.sized (h : Steady s s') : Sized s s' := ⟨h.capacity, h.current⟩

instance : Forking Sized where
  refl _ := ⟨fun _ => rfl, rfl⟩
  trans _ _ _ h₁ h₂ :=
    ⟨fun d => (h₂.capacity d).trans (h₁.capacity d), h₂.current.trans h₁.current⟩
  putBlock := (Storing.putBlock (R := Steady)).sized
  putInode := ⟨fun _ => rfl, rfl⟩
  putFile := ⟨fun _ => rfl, rfl⟩
  setProc := ⟨fun _ => rfl, rfl⟩

theorem Sized.of_ok {α : Type} {x : Kern α} {a : α} (h : Within Sized x)
    (hx : x s = .ok a s') : Sized s s' := Confined.of_ok h hx

/-- No bound. -/
def Anyhow (_ _ : KState) : Prop := True

instance : Forking Anyhow where
  refl _ := trivial
  trans _ _ _ _ _ := trivial
  putBlock := trivial
  putInode := trivial
  putFile := trivial
  setProc := trivial

/-! ## Errors -/

/-- Neither the `PANIC` of `iput` or `file_close` over a reference count, nor an
access outside a buffer. -/
def Halt.Plain : Halt → Prop
  | .iput _ _ | .fileClose | .outOfBounds _ => False
  | _ => True

/-- The plain errors are among `E`. -/
class Plain (E : Halt → KState → Prop) : Prop where
  plain : ∀ {e : Halt} {s : KState}, e.Plain → E e s

/-- Those over a reference count are among `E`. -/
class Miscount (E : Halt → KState → Prop) : Prop where
  iput : ∀ {n : Nat} {r : Int} {s : KState}, E (.iput n r) s
  fileClose : ∀ {s : KState}, E .fileClose s

/-- The scan of a free map that is larger than its block is among `E`. -/
class Scanning (E : Halt → KState → Prop) : Prop where
  scan : ∀ {dev b : Nat} {s : KState}, BSIZE ≤ b / 8 → b < (s.sb dev).nblocks →
    E (.outOfBounds (b / 8)) s

/-- All accesses outside a buffer are. -/
class Wild (E : Halt → KState → Prop) : Prop where
  outOfBounds : ∀ {i : Nat} {s : KState}, E (.outOfBounds i) s

instance {E : Halt → KState → Prop} [Wild E] : Scanning E := ⟨fun _ _ => Wild.outOfBounds⟩

instance : Plain fun _ _ => True := ⟨fun _ => trivial⟩

instance : Miscount fun _ _ => True := ⟨trivial, trivial⟩

instance : Wild fun _ _ => True := ⟨trivial⟩

/-- Not the `PANIC` of `iput` or `file_close` over a reference count. -/
def Halt.Fair : Halt → Prop
  | .iput _ _ => False
  | .fileClose => False
  | _ => True

/-- The kernel stops fairly, in whatever state. -/
def Fairly (e : Halt) (_ : KState) : Prop := e.Fair

instance : Plain Fairly where
  plain {e _} h := by
    cases e with
    | iput n r => exact h
    | fileClose => exact h
    | _ => trivial

instance : Wild Fairly := ⟨trivial⟩

/-- The calls that leave the processes as they are. -/
def Syscall.KeepsProcs : Syscall → Prop
  | .spawn _ | .exit | .wait _ => False
  | _ => True

/-- `x` does not stop in `iput` or `file_close`. -/
abbrev Fair {α : Type} (x : Kern α) : Prop := Confined Steady Fairly x

end Dmaos

namespace Fault.Confined

open Dmaos

variable {R : KState → KState → Prop} {E : Halt → KState → Prop} {α : Type} {dev : Nat}
  {dp : Fin NINODE} {name path : List Byte} {flags : Nat} {buf : Buf}

section Basic

variable [IsPreorder KState R]

theorem onlyIf {c : Prop} [Decidable c] {x : Kern Unit} (h : Confined R E x) :
    Confined R E (onlyIf c x) := .ite h .pure

theorem inodeAt : Confined R E (inodeAt ip) := ⟨fun s => refl_of R s, fun hx => by cases hx⟩

theorem superblock : Confined R E (superblock dev) :=
  ⟨fun s => refl_of R s, fun hx => by cases hx⟩

theorem fsNormalizePath [Wild E] {base rel : List Byte} {dstLen : Nat} :
    Confined R E (fsNormalizePath base rel dstLen) :=
  .bind (.ite .pure (.ite (.throw Wild.outOfBounds) .pure)) fun _ => .pure

end Basic

/-! ## Storing -/

theorem iput [Counting R] [Miscount E] : Confined R E (iput ip) where
  effect := Counting.iput ip
  raises hx := by
    unfold Dmaos.iput at hx
    split_ifs at hx
    cases hx
    exact Miscount.iput

section Storing

variable [Storing R]

theorem setDinode {f : Dinode → Dinode} : Confined R E (setDinode ip f) :=
  .modify fun _ => Storing.putInode

theorem fileCreate {type : FileDescType} : Confined R E (fileCreate type flags) where
  effect s := by
    unfold Dmaos.fileCreate
    cases findFile s with
    | none => exact refl_of R s
    | some f => exact Storing.putFile
  raises {s} _ _ hx := by
    unfold Dmaos.fileCreate at hx
    split at hx <;> cases hx

variable [Miscount E]

theorem fileClose : Confined R E (fileClose f) :=
  .bind .get fun s => .ite (.throw Miscount.fileClose) (.ite (by
    cases (s.fileTable f).ip with
    | none => exact .modify fun _ => Storing.putFile
    | some ip => exact .bind iput fun _ => .modify fun _ => Storing.putFile)
    (.modify fun _ => Storing.putFile))

theorem fileCloseOpt {o : Option (Fin GLOBAL_OPEN_FILE_LIMIT)} : Confined R E (fileCloseOpt o) := by
  cases o with
  | none => exact .pure
  | some f => exact fileClose

theorem consoleFiles : Confined R E consoleFiles := by
  refine .bind fileCreate fun f0 => .bind fileCreate fun f1 => .bind fileCreate fun f2 => ?_
  split
  · exact .pure
  · exact .bind fileCloseOpt fun _ => .bind fileCloseOpt fun _ => .bind fileCloseOpt fun _ =>
      .pure

end Storing

section Tasking

variable [Tasking R]

theorem setCwdPath [Wild E] : Confined R E (setCwdPath p path) :=
  .bind .get fun _ => .bind fsNormalizePath fun _ => .modify fun _ => Tasking.putProc rfl rfl

variable [Miscount E]

theorem dropCwd : Confined R E (dropCwd p) :=
  .bind .get fun s => by
    cases (s.procs p).cwd with
    | none => exact .pure
    | some cwd => exact .bind iput fun _ => .modify fun _ => Tasking.putProc rfl rfl

theorem closeAll : ∀ {fds : List (Fin NUM_FILES_PER_PROCESS)}, Confined R E (closeAll p fds)
  | [] => .pure
  | fd :: fds => .bind .get fun s => by
      cases (s.procs p).ofile fd with
      | none => exact closeAll
      | some f =>
          exact .bind fileClose fun _ => .bind (.modify fun _ => Tasking.putProc rfl rfl) fun _ =>
            closeAll

theorem openConsole : Confined R E (openConsole prog p) := by
  cases prog with
  | idle => exact .pure
  | image => exact .bind consoleFiles fun _ => .modify fun _ => Tasking.putProc rfl rfl
  | named path => exact .bind consoleFiles fun _ => .modify fun _ => Tasking.putProc rfl rfl

end Tasking

section Reaping

variable [Forking R] [Miscount E]

theorem reap : Confined R E (reap p) :=
  .bind dropCwd fun _ => .bind closeAll fun _ => .modify fun _ => Forking.setProc

theorem waitProcess {pid : Int} : Confined R E (waitProcess pid) :=
  .bind .get fun s => by
    split
    · exact .pure
    · exact .ite (.bind reap fun _ => .pure) .pure

end Reaping

variable [Plain E]

/-! ## Reading -/

section Reading

variable [IsPreorder KState R]

theorem plain {e : Halt} (h : e.Plain) : Confined R E (MonadExcept.throw e : Kern α) :=
  .throw (Plain.plain h)

theorem readBlock : Confined R E (readBlock dev b) where
  effect s := by
    unfold Dmaos.readBlock
    split_ifs <;> exact refl_of R s
  raises hx := by
    unfold Dmaos.readBlock at hx
    split_ifs at hx
    cases hx
    exact Plain.plain trivial

theorem nonzero {addr : Nat} : Confined R E (nonzero inum bn addr) :=
  .ite (.plain trivial) .pure

theorem bmap : Confined R E (bmap ip bn) :=
  .bind inodeAt fun _ => .ite nonzero
    (.ite (.bind nonzero fun _ => .bind readBlock fun _ => nonzero)
      (.ite (.bind nonzero fun _ => .bind readBlock fun _ => .bind nonzero fun _ =>
          .bind readBlock fun _ => nonzero)
        (.plain trivial)))

theorem readiLoop : ∀ {k offset n : Nat}, Confined R E (readiLoop ip k offset n)
  | 0, _, _ => .pure
  | _ + 1, _, _ => .ite .pure (.bind inodeAt fun _ => .bind bmap fun _ =>
      .bind readBlock fun _ => .bind readiLoop fun _ => .pure)

theorem currentProcess : Confined R E currentProcess :=
  .bind .get fun s => by
    cases s.current with
    | none => exact .plain trivial
    | some p => exact .pure

theorem fdFile : Confined R E (fdFile fd) :=
  .bind currentProcess fun _ => .bind .get fun _ => by
    split_ifs <;> exact .pure

end Reading

/-! ## Inodes that are read -/

section Fetching

variable [Fetching R]

theorem ilock : Confined R E (ilock ip) where
  effect s := by
    have hs := refl_of R s
    refine Stays.bind (J := R s) hs fun I t hI _ => ?_
    obtain ⟨rfl, rfl⟩ := inodeAt_ok hI
    split_ifs
    · exact hs
    · exact hs
    · refine Stays.bind hs fun sb t hsb _ => ?_
      obtain ⟨rfl, rfl⟩ := superblock_ok hsb
      refine Stays.bind ((readBlock (R := R) (E := E)).effect s) fun buf t hb _ => ?_
      obtain ⟨rfl, rfl⟩ := readBlock_ok hb
      exact Fetching.fetch s ip
  raises hx := by
    have h : Confined Anyhow E (Dmaos.ilock ip) :=
      .bind inodeAt fun _ => .ite (.plain trivial) (.ite .pure (.bind superblock fun _ =>
        .bind readBlock fun _ => .modify fun _ => trivial))
    exact h.raises hx

theorem readi {offset : Nat} : Confined R E (readi ip offset n) :=
  .bind ilock fun _ => .bind inodeAt fun _ => .ite .pure
    (.ite .pure (.bind readiLoop fun _ => .pure))

theorem readDirent : Confined R E (readDirent ip off) :=
  .bind readi fun _ => .ite .pure .pure

theorem dirlinkLoop : ∀ {k off : Nat}, Confined R E (dirlinkLoop ip k off)
  | 0, _ => .pure
  | _ + 1, _ => .bind inodeAt fun _ => .ite .pure (.bind readDirent fun
      | none => .pure
      | some _ => .ite .pure dirlinkLoop)

theorem isDirEmptyLoop : ∀ {k off : Nat}, Confined R E (isDirEmptyLoop ip k off)
  | 0, _ => .pure
  | _ + 1, _ => .bind inodeAt fun _ => .ite .pure (.bind readDirent fun
      | none => .pure
      | some _ => .ite .pure isDirEmptyLoop)

theorem isDirEmpty : Confined R E (isDirEmpty ip) := .bind inodeAt fun _ => isDirEmptyLoop

theorem removable : Confined R E (removable ip) :=
  .bind ilock fun _ => .bind inodeAt fun _ => .ite isDirEmpty .pure

theorem rootEntry : ∀ {k off : Nat} {current : Int},
    Confined R E (rootEntry ip index k off current)
  | 0, _, _ => .pure
  | _ + 1, _, _ => .bind inodeAt fun _ => .ite .pure (.bind readDirent fun
      | none => .pure
      | some _ => .ite rootEntry (.ite .pure rootEntry))

theorem loadImage : ∀ {k off : Nat}, Confined R E (loadImage ip size k off)
  | 0, _ => .pure
  | _ + 1, _ => .ite .pure (.bind readi fun _ => loadImage)

end Fetching

/-! ## Names -/

section Names

variable [Counting R]

theorem iget : Confined R E (iget dev inum) where
  effect := Counting.iget dev inum
  raises hx := by
    unfold Dmaos.iget at hx
    split at hx
    · cases hx
    · split at hx
      · cases hx
      · cases hx
        exact Plain.plain trivial

theorem dirlookupLoop : ∀ {k off : Nat}, Confined R E (dirlookupLoop dp name k off)
  | 0, _ => .pure
  | _ + 1, _ => .bind inodeAt fun _ => .ite .pure (.bind readDirent fun
      | none => .pure
      | some _ => .ite dirlookupLoop (.ite (.bind iget fun _ => .pure) dirlookupLoop))

theorem dirlookup : Confined R E (dirlookup dp name) :=
  .bind inodeAt fun _ => .ite .pure (.bind ilock fun _ => .bind inodeAt fun _ => dirlookupLoop)

theorem namexStart : Confined R E (namexStart path) :=
  .bind .get fun s => .ite iget (by
    cases s.current.bind (fun p => (s.procs p).cwd) with
    | none => exact iget
    | some cwd => exact iget)

theorem inheritCwd : Confined R E inheritCwd :=
  .bind .get fun s => by
    cases s.current.bind (fun p => (s.procs p).cwd) with
    | none => exact iget
    | some cwd => exact iget

variable [Miscount E]

theorem mountParent : Confined R E (mountParent ip name) :=
  .bind inodeAt fun I => .ite (.bind .get fun s => by
    cases s.mounts.find? (fun m => m.childDev == I.dev) with
    | none => exact .pure
    | some m =>
        exact .bind iget fun _ => .bind ilock fun _ => .bind dirlookup fun _ =>
          .bind iput fun _ => .pure) .pure

theorem mountChild : Confined R E (mountChild ip) :=
  .bind inodeAt fun N => .bind .get fun s => by
    cases s.mounts.find? (fun m => m.parentDev == N.dev && m.parentInum == N.inum) with
    | none => exact .pure
    | some m => exact .bind iput fun _ => iget

theorem namexNext : Confined R E (namexNext ip name) :=
  .bind mountParent fun
    | some _ => .pure
    | none => .bind dirlookup fun _ => .pure

theorem namexLoop : ∀ {k : Nat} {path : List Byte} {ip : Fin NINODE}
    {name : List Byte}, Confined R E (namexLoop parent k path ip name)
  | 0, _, _, _ => .pure
  | k + 1, path, ip, name => by
      unfold Dmaos.namexLoop
      split
      · exact .ite (.bind iput fun _ => .pure) .pure
      · exact .bind ilock fun _ => .bind inodeAt fun _ => .ite (.bind iput fun _ => .pure)
          (.ite .pure (.bind namexNext fun
            | none => .bind iput fun _ => .pure
            | some _ => .bind mountChild fun _ => .bind iput fun _ => namexLoop))

theorem namex : Confined R E (namex path parent) :=
  .bind namexStart fun _ => namexLoop

theorem namei : Confined R E (namei path) := .bind namex fun _ => .pure

theorem fsStat : Confined R E (fsStat path) :=
  .bind namei fun
    | none => .pure
    | some _ => .bind ilock fun _ => .bind inodeAt fun _ => .bind iput fun _ => .pure

theorem fsChdir : Confined R E (fsChdir path) :=
  .bind namei fun
    | none => .pure
    | some _ => .bind ilock fun _ => .bind inodeAt fun _ =>
        .ite (.bind iput fun _ => .pure) .pure

theorem fsGetFileName {bufLen : Int} {behind : List Byte} :
    Confined R E (fsGetFileName index bufLen behind) :=
  .ite .pure (.bind iget fun _ => .bind ilock fun _ => .bind inodeAt fun _ =>
    .bind rootEntry fun
      | none => .bind iput fun _ => .pure
      | some _ => .bind iput fun _ => .pure)

theorem fsGetFileSize : Confined R E (fsGetFileSize index) :=
  .bind iget fun _ => .bind ilock fun _ => .bind inodeAt fun _ => .bind rootEntry fun
    | none => .bind iput fun _ => .pure
    | some _ => .bind iget fun _ => .bind ilock fun _ => .bind inodeAt fun _ =>
        .bind iput fun _ => .bind iput fun _ => .pure

theorem loadProgram : Confined R E (loadProgram prog) := by
  cases prog with
  | idle => exact .pure
  | image => exact .pure
  | named path =>
      exact .bind namei fun
        | none => .pure
        | some _ => .bind ilock fun _ => .bind inodeAt fun _ => .bind loadImage fun _ =>
            .bind iput fun _ => .pure

end Names

/-! ## Blocks and inodes -/

section Inodes

variable [Storing R]

theorem writeBlock : Confined R E (writeBlock dev b buf) where
  effect s := by
    unfold Dmaos.writeBlock
    split_ifs
    · exact Storing.putBlock
    · exact refl_of R s
  raises hx := by
    unfold Dmaos.writeBlock at hx
    split_ifs at hx
    cases hx
    exact Plain.plain trivial

theorem iupdate : Confined R E (iupdate ip) :=
  .bind inodeAt fun _ => .bind superblock fun _ => .bind readBlock fun _ => writeBlock

theorem iallocScan : ∀ {k inum : Nat}, Confined R E (iallocScan dev type k inum)
  | 0, _ => .pure
  | _ + 1, _ => .bind superblock fun _ => .bind readBlock fun _ =>
      .ite (.bind writeBlock fun _ => .bind iget fun _ =>
        .bind (.modify fun _ => Storing.putInode) fun _ => .pure) iallocScan

theorem ialloc : Confined R E (ialloc dev type) :=
  .bind superblock fun _ => iallocScan

section Allocating

variable [Scanning E]

/-- The scan of a free map stops at its end, or outside its block. -/
theorem ballocScan_stops : ∀ {k b : Nat}, b + k ≤ (s.sb dev).nblocks →
    Stops E (ballocScan buf k b) s
  | 0, _, _ => stops (R := Anyhow) (.plain (e := .balloc) trivial)
  | k + 1, b, hle => by
      unfold ballocScan
      split_ifs with hb
      · intro e t hx
        cases hx
        exact Scanning.scan hb (show b < (s.sb dev).nblocks by omega)
      · exact ballocScan_stops (by omega)
      · exact .pure

theorem balloc : Confined R E (balloc dev) where
  effect := by
    have hscan : ∀ {buf k b}, Within R (ballocScan buf k b) := by
      intro buf k
      induction k with
      | zero => exact .plain trivial
      | succ k ih => exact .ite (.throw trivial) (.ite ih .pure)
    exact Confined.effect (.bind superblock fun _ => .bind readBlock fun _ => .bind hscan fun _ =>
      .bind writeBlock fun _ => .bind writeBlock fun _ => .pure)
  raises {s _ _} hx := by
    refine Stops.bind (stops (R := Anyhow) superblock) (fun sb t hsb => ?_) _ _ hx
    obtain ⟨rfl, rfl⟩ := superblock_ok hsb
    refine .bind (stops (R := Anyhow) readBlock) fun buf t hb => ?_
    obtain ⟨rfl, rfl⟩ := readBlock_ok hb
    refine .bind (ballocScan_stops (Nat.le_of_eq (Nat.zero_add (s.sb dev).nblocks))) fun b t _ => ?_
    exact stops (R := Anyhow) (.bind writeBlock fun _ => .bind writeBlock fun _ => .pure)

theorem addrAlloc : Confined R E (addrAlloc ip i) :=
  .bind inodeAt fun _ => .ite (.bind balloc fun _ => .bind setDinode fun _ =>
    .bind iupdate fun _ => .pure) .pure

theorem entryAlloc : Confined R E (entryAlloc ip table i) :=
  .bind inodeAt fun _ => .bind readBlock fun _ => .ite (.bind balloc fun _ =>
    .bind writeBlock fun _ => .pure) .pure

theorem bmapAlloc : Confined R E (bmapAlloc ip bn) :=
  .ite addrAlloc (.ite (.bind addrAlloc fun _ => entryAlloc)
    (.ite (.bind addrAlloc fun _ => .bind entryAlloc fun _ => entryAlloc) (.plain trivial)))

theorem writeiLoop : ∀ {k tot off : Nat}, Confined R E (writeiLoop ip buf n k tot off)
  | 0, _, _ => .pure
  | _ + 1, _, _ => .ite .pure (.bind inodeAt fun _ => .bind bmapAlloc fun _ =>
      .bind readBlock fun _ => .bind writeBlock fun _ => writeiLoop)

theorem writei : Confined R E (writei ip buf off n) :=
  .bind ilock fun _ => .bind inodeAt fun _ => .ite .pure (.ite .pure
    (.bind writeiLoop fun _ => .bind inodeAt fun _ =>
      .ite (.bind setDinode fun _ => .bind iupdate fun _ => .pure) .pure))

variable [Miscount E]

theorem dirlink : Confined R E (dirlink dp name inum) :=
  .bind dirlookup fun
    | some _ => .bind iput fun _ => .pure
    | none => .bind ilock fun _ => .bind inodeAt fun _ => .bind dirlinkLoop fun
      | none => .pure
      | some _ => .bind writei fun _ => .ite .pure .pure

theorem fsMkdirFill : Confined R E (fsMkdirFill dp ip name) :=
  .bind inodeAt fun _ => .bind inodeAt fun _ => .bind writei fun _ => .ite .pure
    (.bind writei fun _ => .ite .pure (.bind dirlink fun _ => .ite .pure .pure))

theorem fsMkdirIn : Confined R E (fsMkdirIn dp name) :=
  .bind inodeAt fun _ => .bind dirlookup fun
    | some _ => .bind iput fun _ => .bind iput fun _ => .pure
    | none => .bind ialloc fun
      | none => .bind iput fun _ => .pure
      | some _ => .bind fsMkdirFill fun _ => .bind iput fun _ => .bind iput fun _ =>
          .ite .pure .pure

theorem fsMkdir : Confined R E (fsMkdir path) :=
  .bind namex fun
    | (none, _) => .pure
    | (some _, _) => .bind inodeAt fun _ => .ite (.bind iput fun _ => .pure) fsMkdirIn

end Allocating

section Freeing

variable [Wild E]

theorem bfree : Confined R E (bfree dev b) :=
  .bind superblock fun _ => .bind readBlock fun _ => .ite (.throw Wild.outOfBounds)
    (.ite writeBlock (.plain trivial))

theorem freeTable : Confined R E (freeTable ip i) :=
  .bind inodeAt fun _ => .ite .pure (.bind bfree fun _ => setDinode)

theorem freeSingle : Confined R E (freeSingle ip i) :=
  .bind inodeAt fun _ => .ite .pure (.bind readBlock fun _ =>
    .ite .pure (.bind bfree fun _ => writeBlock))

theorem freeEntry : Confined R E (freeEntry dev table buf i) :=
  .ite .pure (.bind bfree fun _ => .bind writeBlock fun _ => .pure)

theorem freeDouble {dfbn : Nat} : Confined R E (freeDouble ip dfbn) :=
  .bind inodeAt fun _ => .ite .pure (.bind readBlock fun _ => .ite (.throw Wild.outOfBounds)
    (.ite .pure (.bind readBlock fun _ => .bind freeEntry fun _ =>
      .ite (.bind bfree fun _ => writeBlock) .pure)))

theorem freeBlock : Confined R E (freeBlock ip bn) :=
  .ite freeTable (.ite freeSingle freeDouble)

theorem itruncLoop : ∀ {k bn : Nat}, Confined R E (itruncLoop ip k bn)
  | 0, _ => .pure
  | _ + 1, _ => .bind freeBlock fun _ => itruncLoop

theorem itruncBlocks {hi lo : Nat} : Confined R E (itruncBlocks ip hi lo) :=
  .bind itruncLoop fun _ => .bind (onlyIf freeTable) fun _ => onlyIf freeTable

theorem itrunc : Confined R E (itrunc ip size) :=
  .bind ilock fun _ => .bind inodeAt fun _ => .ite .pure (.bind (onlyIf itruncBlocks) fun _ =>
    .bind setDinode fun _ => iupdate)

variable [Miscount E]

theorem fsRmEntry : Confined R E (fsRmEntry dp ip off) :=
  .bind writei fun _ => .ite (.bind iput fun _ => .bind iput fun _ => .pure)
    (.bind itrunc fun _ => .bind setDinode fun _ => .bind iupdate fun _ => .bind iput fun _ =>
      .bind iput fun _ => .pure)

theorem fsRmIn : Confined R E (fsRmIn dp name) :=
  .bind dirlookup fun
    | none => .bind iput fun _ => .pure
    | some _ => .bind removable fun _ => .ite fsRmEntry
        (.bind iput fun _ => .bind iput fun _ => .pure)

theorem fsRm : Confined R E (fsRm path) :=
  .bind namex fun
    | (none, _) => .pure
    | (some _, _) => .bind inodeAt fun _ => .ite (.bind iput fun _ => .pure) fsRmIn

end Freeing

end Inodes

/-! ## Open files -/

section Files

variable [Storing R]

theorem fsRead {n : Int} : Confined R E (fsRead fd n) := by
  refine .bind fdFile fun o => ?_
  cases o with
  | none => exact .pure
  | some o =>
      refine .bind .get fun s => .ite .pure (.ite .pure ?_)
      cases (s.fileTable o.2.2).type with
      | none => exact .plain trivial
      | console => exact .pure
      | inode =>
          cases (s.fileTable o.2.2).ip with
          | none => exact .pure
          | some ip =>
              exact .bind readi fun _ => .ite (.bind (.modify fun _ => Storing.putFile) fun _ =>
                .pure) .pure

theorem fsLseek {offset whence : Int} : Confined R E (fsLseek fd offset whence) := by
  refine .bind fdFile fun o => ?_
  cases o with
  | none => exact .pure
  | some o =>
      refine .bind .get fun s => ?_
      dsimp only
      split
      · exact .pure
      · split
        · exact .pure
        · exact .ite .pure (.bind (.modify fun _ => Storing.putFile) fun _ => .pure)

theorem fsWrite [Scanning E] {n : Int} : Confined R E (fsWrite fd buf n) := by
  refine .bind fdFile fun o => ?_
  cases o with
  | none => exact .pure
  | some o =>
      refine .bind .get fun s => .ite .pure (.ite .pure ?_)
      cases (s.fileTable o.2.2).type with
      | none => exact .plain trivial
      | console => exact .pure
      | inode =>
          cases (s.fileTable o.2.2).ip with
          | none => exact .pure
          | some ip =>
              exact .bind writei fun _ => .ite (.bind (.modify fun _ => Storing.putFile) fun _ =>
                .pure) (.ite .pure .pure)

theorem fsFtruncate [Wild E] {length : Int} : Confined R E (fsFtruncate fd length) := by
  refine .bind fdFile fun o => ?_
  cases o with
  | none => exact .pure
  | some o =>
      refine .bind .get fun s => .ite .pure (.ite .pure (.ite .pure ?_))
      split
      · exact .bind itrunc fun _ => .pure
      · exact .plain trivial
      · exact .pure

end Files

/-! ## Processes -/

section Processes

variable [Tasking R] [Miscount E]

theorem installFd : Confined R E (installFd f) :=
  .bind currentProcess fun p => .bind .get fun s => by
    cases findFd s p with
    | none => exact .bind fileClose fun _ => .pure
    | some fd => exact .bind (.modify fun _ => Tasking.putProc rfl rfl) fun _ => .pure

theorem allocFileDescriptor : Confined R E (allocFileDescriptor ip flags) :=
  .bind fileCreate fun
    | none => .bind iput fun _ => .pure
    | some _ => .bind inodeAt fun _ => .bind (.modify fun _ => Storing.putFile) fun _ => installFd

theorem fsClose : Confined R E (fsClose fd) :=
  .bind fdFile fun
    | none => .pure
    | some _ => .bind .get fun _ => .ite .pure
        (.bind (.modify fun _ => Tasking.putProc rfl rfl) fun _ => .bind fileClose fun _ => .pure)

variable [Wild E]

theorem sysChdir : Confined R E (sysChdir path) :=
  .bind fsChdir fun
    | (_, none) => .pure
    | (_, some _) => .bind currentProcess fun _ => .bind setCwdPath fun _ =>
        .bind dropCwd fun _ => .bind (.modify fun _ => Tasking.putProc rfl rfl) fun _ => .pure

theorem fsCreateIn : Confined R E (fsCreateIn dp name flags) :=
  .bind inodeAt fun _ => .bind dirlookup fun
    | none => .bind ialloc fun
      | none => .bind iput fun _ => .pure
      | some _ => .bind inodeAt fun _ => .bind dirlink fun _ =>
          .ite (.bind iput fun _ => .bind iput fun _ => .pure)
            (.bind iput fun _ => allocFileDescriptor)
    | some _ => .bind ilock fun _ => .bind inodeAt fun _ =>
        .ite (.bind itrunc fun _ => .bind iput fun _ => allocFileDescriptor)
          (.bind iput fun _ => allocFileDescriptor)

theorem fsCreate : Confined R E (fsCreate path flags) :=
  .bind namex fun
    | (none, _) => .pure
    | (some _, _) => .bind inodeAt fun _ => .ite (.bind iput fun _ => .pure) fsCreateIn

theorem fsOpen : Confined R E (fsOpen path flags) :=
  .ite (.bind fileCreate fun
      | none => .pure
      | some _ => installFd)
    (.bind namei fun
      | none => .pure
      | some _ => .bind ilock fun _ => .bind inodeAt fun _ =>
          .ite (.bind iput fun _ => .pure)
            (.ite (.bind itrunc fun _ => allocFileDescriptor) allocFileDescriptor))

theorem keepsProcs (hc : c.KeepsProcs) : Confined R E (handleSyscall c) := by
  cases c with
  | «open» path flags => exact .ite fsCreate fsOpen
  | read fd n => exact .ite .pure (.bind fsRead fun _ => .pure)
  | write fd buf n => exact fsWrite
  | close fd => exact fsClose
  | lseek fd offset whence => exact fsLseek
  | ftruncate fd length => exact fsFtruncate
  | getFileName index bufLen => exact .ite .pure (.bind fsGetFileName fun _ => .pure)
  | getFileSize index => exact fsGetFileSize
  | stat path => exact .bind fsStat fun _ => .pure
  | chdir path => exact sysChdir
  | mkdir path => exact fsMkdir
  | rm path => exact fsRm
  | spawn cmdline => exact hc.elim
  | exit => exact hc.elim
  | wait pid => exact hc.elim
  | other => exact .pure

end Processes

/-! ## System calls -/

section Calls

variable [Forking R]

theorem exitCurrentProcess : Confined R E exitCurrentProcess :=
  .bind currentProcess fun _ => .modify fun _ => Forking.setProc

variable [Miscount E]

theorem createProcess : Confined R E (createProcess prog) :=
  .bind .get fun s => by
    cases findProc s with
    | none => exact .plain trivial
    | some p =>
        exact .bind (.modify fun _ => Forking.setProc) fun _ => .bind openConsole fun _ =>
          .bind inheritCwd fun _ => .bind (.modify fun _ => Forking.setProc) fun _ =>
            .bind loadProgram fun _ =>
              .ite (.bind (.modify fun _ => Forking.setProc) fun _ => .pure) .pure

theorem spawnProcess {cmdline : List Byte} : Confined R E (spawnProcess cmdline) :=
  .ite .pure (.bind createProcess fun
    | none => .pure
    | some _ => .bind .get fun _ => .pure)

theorem handleSyscall [Wild E] : Confined R E (handleSyscall c) := by
  cases c with
  | spawn cmdline => exact spawnProcess
  | exit => exact .bind exitCurrentProcess fun _ => .pure
  | wait pid => exact waitProcess
  | _ => exact keepsProcs trivial

end Calls

end Fault.Confined

open Dmaos in
theorem Fault.Stops.inodeAt {E : Halt → KState → Prop} {α : Type}
    {f : Inode → Kern α} (h : Fault.Stops E (f (s.inodeTable ip)) s) :
    Fault.Stops E (inodeAt ip >>= f) s := h
