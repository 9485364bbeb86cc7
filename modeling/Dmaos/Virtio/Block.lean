import Dmaos.Lib.Actions
import Mathlib.Data.Fintype.Pi
import Dmaos.Virtio.Queue

/-!
# The driver of the block devices

`read_write_device` fills in a request, puts its first descriptor on the available
ring and waits until the counter of the used ring is the number of requests it
has made.  The device takes the entries of the available ring in order, moves the
data, reports a status and increments the counter.  The two take their steps in
any order.

Each device serves the requests it is asked for, in order and one at a time
(`blk_protocol`), and so what is read from a sector is what was last written to it.
-/

namespace Dmaos

open Actions Function

variable {init : Fin 2 → Nat → Sector} {dev e : Fin 2} {d d' : BlkDev} {r : Request}
  {content : Nat → Sector} {step : Step} {line : Line} {b : Blk} {sectors reqPaddr : Fin 2 → Nat}
  {req : Fin 2 → BlkReq}

abbrev SECTOR_SIZE : Nat := 512

abbrev VIRTIO_BLK_T_IN : Nat := 0
abbrev VIRTIO_BLK_T_OUT : Nat := 1

abbrev Sector := Fin SECTOR_SIZE → Byte

/-- `struct virtio_blk_req`. -/
structure BlkReq where
  type : Nat
  sector : Nat
  data : Sector
  status : Nat

/-- What a request asks for: the bytes of a sector, or bytes to be put there. -/
structure Request where
  sector : Nat
  out : Option Sector

/-- What a device is doing. -/
inductive Work where
  | idle
  /-- The entry of the available ring has been read. -/
  | taken (head : Nat)
  /-- The data has been moved. -/
  | moved (head : Nat) (r : Request)
  /-- The status has been written. -/
  | reported (head : Nat) (r : Request)

/-- `struct virtio_blk_dev`, and the device itself. -/
structure BlkDev where
  sectors : Nat
  reqPaddr : Nat
  req : BlkReq
  vq : Virtq
  /-- The contents of the device. -/
  disk : Nat → Sector
  /-- The next entry of the available ring the device will take. -/
  lastAvail : BitVec 16
  work : Work
  /-- The requests the driver has made. -/
  asked : List Request
  /-- The requests the device has served. -/
  served : List Request

namespace BlkDev

/-! ## The device -/

/-- The three descriptors of a request lead to its header, data and status. -/
def Chain (d : BlkDev) (head : Nat) (write : Bool) : Prop :=
  let d0 := d.vq.descs head
  let d1 := d.vq.descs d0.next
  let d2 := d.vq.descs d1.next
  d0.addr = d.reqPaddr ∧ d0.len = 16 ∧ d0.flags = VIRTQ_DESC_F_NEXT ∧
    d1.addr = d.reqPaddr + 16 ∧ d1.len = SECTOR_SIZE ∧
    d1.flags = VIRTQ_DESC_F_NEXT ||| (if write then 0 else VIRTQ_DESC_F_WRITE) ∧
    d2.addr = d.reqPaddr + 528 ∧ d2.len = 1 ∧ d2.flags = VIRTQ_DESC_F_WRITE

instance (d : BlkDev) (head : Nat) (write : Bool) : Decidable (d.Chain head write) :=
  inferInstanceAs (Decidable (_ ∧ _))

/-- The request the device finds behind a descriptor. -/
def request (d : BlkDev) (head : Nat) : Option Request :=
  if d.req.type = VIRTIO_BLK_T_IN ∧ d.Chain head false then some ⟨d.req.sector, none⟩
  else if d.req.type = VIRTIO_BLK_T_OUT ∧ d.Chain head true then
    some ⟨d.req.sector, some d.req.data⟩
  else none

/-- The device moves the data of a request. -/
def carryOut (d : BlkDev) (r : Request) : BlkDev :=
  match r.out with
  | none => { d with req := { d.req with data := d.disk r.sector } }
  | some data => { d with disk := update d.disk r.sector data }

/-- A request fails: whatever was to be written is spoilt. -/
def spoil (d : BlkDev) (r : Request) (junk : Sector) : BlkDev :=
  match r.out with
  | none => { d with req := { d.req with data := junk } }
  | some _ => { d with disk := update d.disk r.sector junk }

/-- The steps of a device. -/
inductive Step where
  | take
  | transfer
  | report
  | fault (status : Nat) (junk : Sector)
  | complete

/-- A device takes the entries of the available ring in order, moves the data and
reports a status, and then increments the index of the used ring. -/
def serve (d : BlkDev) : Step → Option BlkDev
  | .take =>
    match d.work with
    | .idle =>
      if d.lastAvail = d.vq.availIndex then none
      else some { d with
        lastAvail := d.lastAvail + 1
        work := .taken (d.vq.availRing (slot d.lastAvail)) }
    | _ => none
  | .transfer =>
    match d.work with
    | .taken head => (d.request head).map fun r => { d.carryOut r with work := .moved head r }
    | _ => none
  | .report =>
    match d.work with
    | .moved head r => some { d with req := { d.req with status := 0 }, work := .reported head r }
    | _ => none
  | .fault status junk =>
    match d.work with
    | .taken head =>
      if status = 0 then none
      else (d.request head).map fun r =>
        let d := d.spoil r junk
        { d with req := { d.req with status := status }, work := .reported head r }
    | _ => none
  | .complete =>
    match d.work with
    | .reported head r =>
      some { d with vq := d.vq.putUsed head, work := .idle, served := d.served ++ [r] }
    | _ => none

end BlkDev

/-! ## The driver -/

/-- A call of `read_device` or `write_device`. -/
structure BlkCall where
  dev : Nat
  request : Request

/-- A call that has returned: the bytes read, or written. -/
inductive Done where
  | read (dev : Fin 2) (sector : Nat) (data : Sector)
  | write (dev : Fin 2) (sector : Nat) (data : Sector)
  deriving DecidableEq

/-- The statements of `read_write_device` and `virtq_kick`. -/
inductive Line where
  | sector | type | data | desc0 | desc1 | desc2
  | ring | index | notify | bump | wait | status | copy

/-- Where the driver is. -/
inductive Control where
  /-- Between calls. -/
  | idle
  | inside (line : Line) (dev : Fin 2) (r : Request)
  /-- After `PANIC`. -/
  | halted

/-- The two devices, the driver, and the calls that have returned. -/
structure Blk where
  devices : Fin 2 → BlkDev
  control : Control
  done : List Done

namespace BlkDev

/-- What a statement of `read_write_device` does to the device, and where the
driver goes. -/
def drive (d : BlkDev) (dev : Fin 2) (r : Request) : Line → BlkDev × (Control ⊕ Done)
  | .sector =>
    ({ d with req := { d.req with sector := r.sector } }, .inl (.inside .type dev r))
  | .type =>
    let type := if r.out.isSome then VIRTIO_BLK_T_OUT else VIRTIO_BLK_T_IN
    ({ d with req := { d.req with type := type } }, .inl (.inside .data dev r))
  | .data =>
    ({ d with req := { d.req with data := r.out.getD d.req.data } }, .inl (.inside .desc0 dev r))
  | .desc0 =>
    ({ d with vq := d.vq.setDesc 0 ⟨d.reqPaddr, 16, VIRTQ_DESC_F_NEXT, 1⟩ },
      .inl (.inside .desc1 dev r))
  | .desc1 =>
    let flags := VIRTQ_DESC_F_NEXT ||| (if r.out.isSome then 0 else VIRTQ_DESC_F_WRITE)
    ({ d with vq := d.vq.setDesc 1 ⟨d.reqPaddr + 16, SECTOR_SIZE, flags, 2⟩ },
      .inl (.inside .desc2 dev r))
  | .desc2 =>
    -- `next` is left as it is.
    let desc := ⟨d.reqPaddr + 528, 1, VIRTQ_DESC_F_WRITE, (d.vq.descs 2).next⟩
    ({ d with vq := d.vq.setDesc 2 desc }, .inl (.inside .ring dev r))
  | .ring => ({ d with vq := d.vq.putAvail 0 }, .inl (.inside .index dev r))
  | .index =>
    ({ d with vq := d.vq.bumpAvail, asked := d.asked ++ [r] }, .inl (.inside .notify dev r))
  | .notify => (d, .inl (.inside .bump dev r))
  | .bump => ({ d with vq := d.vq.bumpLastUsed }, .inl (.inside .wait dev r))
  | .wait =>
    if d.vq.isBusy then (d, .inl (.inside .wait dev r)) else (d, .inl (.inside .status dev r))
  | .status =>
    if d.req.status ≠ 0 then (d, .inl .halted) else (d, .inl (.inside .copy dev r))
  | .copy =>
    match r.out with
    | none => (d, .inr (.read dev r.sector d.req.data))
    | some data => (d, .inr (.write dev r.sector data))

end BlkDev

/-- A step of the system. -/
inductive BlkAction where
  /-- A call of `read_device` or `write_device` begins. -/
  | call (c : BlkCall)
  /-- The driver goes on. -/
  | drive
  /-- A device goes on. -/
  | serve (dev : Fin 2) (step : BlkDev.Step)

namespace Blk

def setDevice (b : Blk) (dev : Fin 2) (d : BlkDev) : Blk :=
  { b with devices := update b.devices dev d }

/-- The checks at the head of `read_write_device`. -/
def enter (b : Blk) (c : BlkCall) : Control :=
  if h : c.dev < 2 then
    if (b.devices ⟨c.dev, h⟩).sectors ≤ c.request.sector then .halted
    else .inside .sector ⟨c.dev, h⟩ c.request
  else .halted

def next : BlkAction → Blk → Option Blk
  | .call c, b =>
    match b.control with
    | .idle => some { b with control := b.enter c }
    | _ => none
  | .drive, b =>
    match b.control with
    | .inside line dev r =>
      match (b.devices dev).drive dev r line with
      | (d, .inl control) => some { b.setDevice dev d with control := control }
      | (d, .inr done) =>
        some { b.setDevice dev d with control := .idle, done := b.done ++ [done] }
    | _ => none
  | .serve dev step, b => ((b.devices dev).serve step).map (b.setDevice dev)

end Blk

/-! ## What the calls have done -/

/-- The bytes a call has written to a sector. -/
def Done.wrote (dev : Fin 2) (sector : Nat) : Done → Option Sector
  | .read _ _ _ => none
  | .write dev' sector' data => if dev' = dev ∧ sector' = sector then some data else none

/-- The bytes that were last written to a sector, or those it had at first. -/
def lastWritten (init : Fin 2 → Nat → Sector) (done : List Done) (dev : Fin 2) (sector : Nat) :
    Sector :=
  (done.reverse.findSome? (Done.wrote dev sector)).getD (init dev sector)

/-- Each read has returned the bytes last written to its sector. -/
def ReadsLast (init : Fin 2 → Nat → Sector) (done : List Done) : Prop :=
  ∀ earlier dev sector data later, done = earlier ++ .read dev sector data :: later →
    data = lastWritten init earlier dev sector

section History

variable {done : List Done} {sector : Nat} {data : Sector}

@[simp] theorem lastWritten_read :
    lastWritten init (done ++ [.read dev sector data]) e = lastWritten init done e := by
  funext t
  simp [lastWritten, Done.wrote, List.findSome?_cons]

@[simp] theorem lastWritten_write :
    lastWritten init (done ++ [.write dev sector data]) dev =
      update (lastWritten init done dev) sector data := by
  funext t
  by_cases ht : sector = t
  · subst ht
    simp [lastWritten, Done.wrote]
  · rw [update_of_ne (Ne.symm ht)]
    simp [lastWritten, Done.wrote, ht]

theorem lastWritten_write_of_ne (he : e ≠ dev) :
    lastWritten init (done ++ [.write dev sector data]) e = lastWritten init done e := by
  funext t
  simp [lastWritten, Done.wrote, he.symm]

theorem ReadsLast.nil : ReadsLast init [] := by
  intro earlier dev sector data later h
  simp at h

theorem ReadsLast.append {d : Done} (h : ReadsLast init done)
    (hd : ∀ dev sector data, d = .read dev sector data →
      data = lastWritten init done dev sector) : ReadsLast init (done ++ [d]) := by
  intro earlier dev sector data later heq
  rcases List.eq_nil_or_concat later with rfl | ⟨later, l, rfl⟩
  · obtain ⟨rfl, he⟩ := List.append_inj' heq rfl
    cases he
    exact hd dev sector data rfl
  · rw [List.concat_eq_append, ← List.cons_append, ← List.append_assoc] at heq
    obtain ⟨he, -⟩ := List.append_inj' heq rfl
    exact h earlier dev sector data later he

end History

/-! ## The device at rest and at work -/

theorem add_one_ne_self (i : BitVec 16) : i + 1 ≠ i := by
  bv_omega

namespace BlkDev

/-- Nothing is asked of the device. -/
structure Rested (d : BlkDev) : Prop where
  work : d.work = .idle
  taken : d.lastAvail = d.vq.availIndex
  used : d.vq.usedIndex = d.vq.availIndex
  served : d.served = d.asked

/-- Nothing is asked of the device, and the driver knows. -/
structure Quiet (d : BlkDev) : Prop extends Rested d where
  lastUsed : d.vq.lastUsedIndex = d.vq.availIndex

/-- The indices count the requests. -/
structure Counted (d : BlkDev) : Prop where
  avail : d.vq.availIndex = BitVec.ofNat 16 d.asked.length
  used : d.vq.usedIndex = BitVec.ofNat 16 d.served.length

/-- The data of request `r` has been moved, on a device that had the given
contents. -/
def Moved (d : BlkDev) (r : Request) (content : Nat → Sector) : Prop :=
  match r.out with
  | none => d.req.data = content r.sector ∧ d.disk = content
  | some data => d.disk = update content r.sector data

/-- One request, `r`, has not been served yet. -/
structure Owing (d : BlkDev) (r : Request) : Prop where
  used : d.vq.usedIndex + 1 = d.vq.availIndex
  asked : d.asked = d.served ++ [r]

/-- Where the device is with the last request. -/
inductive Phase (d : BlkDev) (r : Request) (content : Nat → Sector) : Prop where
  | queued (owing : d.Owing r) (work : d.work = .idle)
      (taken : d.lastAvail + 1 = d.vq.availIndex) (ring : d.vq.availRing (slot d.lastAvail) = 0)
      (request : d.request 0 = some r) (disk : d.disk = content)
  | taken (owing : d.Owing r) (work : d.work = .taken 0) (taken : d.lastAvail = d.vq.availIndex)
      (request : d.request 0 = some r) (disk : d.disk = content)
  | moved (owing : d.Owing r) (work : d.work = .moved 0 r) (taken : d.lastAvail = d.vq.availIndex)
      (moved : d.Moved r content)
  | reported (owing : d.Owing r) (work : d.work = .reported 0 r)
      (taken : d.lastAvail = d.vq.availIndex) (moved : d.req.status = 0 → d.Moved r content)
  | finished (rested : d.Rested) (last : d.asked.getLast? = some r)
      (moved : d.req.status = 0 → d.Moved r content)

section Serve

/-- A device of which nothing is asked does nothing. -/
theorem Rested.serve (h : d.Rested) : d.serve step = none := by
  cases step <;> simp [BlkDev.serve, h.work, h.taken]

/-- The queue and the logs are the same. -/
structure SameQueue (d d' : BlkDev) : Prop where
  vq : d'.vq = d.vq
  asked : d'.asked = d.asked
  served : d'.served = d.served
  lastAvail : d'.lastAvail = d.lastAvail

theorem sameQueue_carryOut (d : BlkDev) (r : Request) : SameQueue d (d.carryOut r) := by
  unfold carryOut
  split <;> exact ⟨rfl, rfl, rfl, rfl⟩

theorem sameQueue_spoil (d : BlkDev) (r : Request) (junk : Sector) :
    SameQueue d (d.spoil r junk) := by
  unfold spoil
  split <;> exact ⟨rfl, rfl, rfl, rfl⟩

theorem Owing.same (h : d.Owing r) (hs : SameQueue d d') : d'.Owing r where
  used := by rw [hs.vq, h.used]
  asked := by rw [hs.asked, hs.served, h.asked]

theorem Counted.same (h : d.Counted) (hs : SameQueue d d') : d'.Counted where
  avail := by rw [hs.vq, hs.asked, h.avail]
  used := by rw [hs.vq, hs.served, h.used]

theorem moved_carryOut (hdisk : d.disk = content) : (d.carryOut r).Moved r content := by
  unfold carryOut Moved
  cases r.out with
  | none => exact ⟨congrFun hdisk _, hdisk⟩
  | some data => exact congrArg (update · r.sector data) hdisk

/-- The device goes on with the request. -/
theorem Phase.serve (h : d.Phase r content) (hx : d.serve step = some d') :
    d'.Phase r content ∧ d'.vq.availIndex = d.vq.availIndex ∧
      d'.vq.lastUsedIndex = d.vq.lastUsedIndex := by
  cases h with
  | queued owing work taken ring request disk =>
      have hne : d.lastAvail ≠ d.vq.availIndex := by
        rw [← taken]
        exact (add_one_ne_self _).symm
      cases step with
      | take =>
          simp only [BlkDev.serve, work, if_neg hne, Option.some.injEq] at hx
          subst hx
          exact ⟨.taken ⟨owing.used, owing.asked⟩ (by rw [ring]) taken request disk, rfl, rfl⟩
      | _ => simp [BlkDev.serve, work] at hx
  | taken owing work taken request disk =>
      cases step with
      | transfer =>
          simp only [BlkDev.serve, work, request, Option.map_some, Option.some.injEq] at hx
          have hs := sameQueue_carryOut d r
          have ho := owing.same hs
          subst hx
          refine ⟨.moved ⟨ho.used, ho.asked⟩ rfl ?_ (moved_carryOut disk), ?_, ?_⟩
          · rw [hs.vq, hs.lastAvail, taken]
          · rw [hs.vq]
          · rw [hs.vq]
      | fault status junk =>
          simp only [BlkDev.serve, work, request, Option.map_some] at hx
          split at hx
          · cases hx
          · next hstatus =>
              have hs := sameQueue_spoil d r junk
              have ho := owing.same hs
              cases hx
              refine ⟨.reported ⟨ho.used, ho.asked⟩ rfl ?_ fun h0 => absurd h0 hstatus, ?_, ?_⟩
              · rw [hs.vq, hs.lastAvail, taken]
              · rw [hs.vq]
              · rw [hs.vq]
      | _ => simp [BlkDev.serve, work] at hx
  | moved owing work taken moved =>
      cases step with
      | report =>
          simp only [BlkDev.serve, work, Option.some.injEq] at hx
          subst hx
          exact ⟨.reported ⟨owing.used, owing.asked⟩ rfl taken fun _ => moved, rfl, rfl⟩
      | _ => simp [BlkDev.serve, work] at hx
  | reported owing work taken moved =>
      cases step with
      | complete =>
          simp only [BlkDev.serve, work, Option.some.injEq] at hx
          subst hx
          refine ⟨.finished ⟨rfl, taken, owing.used, owing.asked.symm⟩ ?_ moved, rfl, rfl⟩
          simp [owing.asked]
      | _ => simp [BlkDev.serve, work] at hx
  | finished rested last moved =>
      rw [rested.serve] at hx
      cases hx

theorem Counted.serve (h : d.Counted) (hx : d.serve step = some d') : d'.Counted := by
  cases step with
  | take =>
      simp only [BlkDev.serve] at hx
      split at hx
      · split at hx
        · cases hx
        · cases hx
          exact ⟨h.avail, h.used⟩
      · cases hx
  | transfer =>
      simp only [BlkDev.serve] at hx
      split at hx
      · obtain ⟨r, -, rfl⟩ := Option.map_eq_some_iff.mp hx
        have hs := h.same (sameQueue_carryOut d r)
        exact ⟨hs.avail, hs.used⟩
      · cases hx
  | report =>
      simp only [BlkDev.serve] at hx
      split at hx
      · cases hx
        exact ⟨h.avail, h.used⟩
      · cases hx
  | fault status junk =>
      simp only [BlkDev.serve] at hx
      split at hx
      · split at hx
        · cases hx
        · obtain ⟨r, -, rfl⟩ := Option.map_eq_some_iff.mp hx
          have hs := h.same (sameQueue_spoil d r junk)
          exact ⟨hs.avail, hs.used⟩
      · cases hx
  | complete =>
      simp only [BlkDev.serve] at hx
      split at hx
      · cases hx
        refine ⟨h.avail, ?_⟩
        rw [List.length_append, BitVec.ofNat_add, ← h.used]
        rfl
      · cases hx

end Serve

/-! ## The driver between two statements -/

/-- What `read_write_device` has put into the request. -/
structure Filled (d : BlkDev) (r : Request) : Prop where
  sector : d.req.sector = r.sector
  type : d.req.type = if r.out.isSome then VIRTIO_BLK_T_OUT else VIRTIO_BLK_T_IN
  data : ∀ data, r.out = some data → d.req.data = data

/-- What has been prepared of a request when a statement is reached. -/
def Ready (d : BlkDev) (r : Request) : Line → Prop
  | .sector => True
  | .type => d.req.sector = r.sector
  | .data =>
    d.req.sector = r.sector ∧
      d.req.type = if r.out.isSome then VIRTIO_BLK_T_OUT else VIRTIO_BLK_T_IN
  | .desc0 => d.Filled r
  | .desc1 => d.Filled r ∧ d.vq.descs 0 = ⟨d.reqPaddr, 16, VIRTQ_DESC_F_NEXT, 1⟩
  | .desc2 =>
    d.Filled r ∧ d.vq.descs 0 = ⟨d.reqPaddr, 16, VIRTQ_DESC_F_NEXT, 1⟩ ∧
      d.vq.descs 1 = ⟨d.reqPaddr + 16, SECTOR_SIZE,
        VIRTQ_DESC_F_NEXT ||| (if r.out.isSome then 0 else VIRTQ_DESC_F_WRITE), 2⟩
  | .ring => d.request 0 = some r
  | .index => d.request 0 = some r ∧ d.vq.availRing (slot d.vq.availIndex) = 0
  | _ => False

/-- What holds of the device in use when a statement is reached. -/
def At (d : BlkDev) (r : Request) (content : Nat → Sector) : Line → Prop
  | .notify => d.Phase r content ∧ d.vq.lastUsedIndex + 1 = d.vq.availIndex
  | .bump => d.Phase r content ∧ d.vq.lastUsedIndex + 1 = d.vq.availIndex
  | .wait => d.Phase r content ∧ d.vq.lastUsedIndex = d.vq.availIndex
  | .status =>
    d.Quiet ∧ d.asked.getLast? = some r ∧ (d.req.status = 0 → d.Moved r content)
  | .copy => d.Quiet ∧ d.Moved r content
  | line => d.Quiet ∧ d.disk = content ∧ d.Ready r line

section Drive

/-- The descriptors of a request lead the device to it. -/
theorem Filled.request (h : d.Filled r) (h0 : d.vq.descs 0 = ⟨d.reqPaddr, 16, VIRTQ_DESC_F_NEXT, 1⟩)
    (h1 : d.vq.descs 1 = ⟨d.reqPaddr + 16, SECTOR_SIZE,
      VIRTQ_DESC_F_NEXT ||| (if r.out.isSome then 0 else VIRTQ_DESC_F_WRITE), 2⟩)
    (h2 : (d.vq.descs 2).addr = d.reqPaddr + 528 ∧ (d.vq.descs 2).len = 1 ∧
      (d.vq.descs 2).flags = VIRTQ_DESC_F_WRITE) : d.request 0 = some r := by
  have htype := h.type
  have hsector := h.sector
  obtain ⟨sector, out⟩ := r
  cases out with
  | none =>
      have hchain : d.Chain 0 false := by simp [Chain, h0, h1, h2]
      rw [request, if_pos ⟨htype, hchain⟩, hsector]
  | some data =>
      have hchain : d.Chain 0 true := by simp [Chain, h0, h1, h2]
      have htype : d.req.type = VIRTIO_BLK_T_OUT := htype
      have hin : ¬ (d.req.type = VIRTIO_BLK_T_IN ∧ d.Chain 0 false) := by simp [htype]
      rw [request, if_neg hin, if_pos ⟨htype, hchain⟩, hsector, h.data data rfl]

/-- A device in use goes on while the driver is between two statements. -/
theorem At.serve (h : d.At r content line) (hx : d.serve step = some d') :
    d'.At r content line := by
  cases line with
  | notify | bump | wait =>
      obtain ⟨hphase, hlast⟩ := h
      obtain ⟨hphase, ha, hl⟩ := hphase.serve hx
      exact ⟨hphase, by rw [ha, hl, hlast]⟩
  | _ =>
      rw [h.1.serve] at hx
      cases hx

theorem Counted.drive (h : d.Counted) : (d.drive dev r line).1.Counted := by
  cases line with
  | index =>
      refine ⟨?_, h.used⟩
      show d.vq.availIndex + 1 = BitVec.ofNat 16 (d.asked ++ [r]).length
      rw [List.length_append, BitVec.ofNat_add, ← h.avail]
      rfl
  | wait | status | copy =>
      unfold BlkDev.drive
      dsimp only
      split <;> exact h
  | _ => exact ⟨h.avail, h.used⟩

/-- Before the index is incremented, the device pays no attention to the request,
the descriptors and the available ring. -/
theorem Quiet.prepare (h : d.Quiet) (req : BlkReq) (descs : Nat → VirtqDesc)
    (ring : Fin VIRTQ_ENTRY_NUM → Nat) :
    Quiet { d with req := req, vq := { d.vq with descs := descs, availRing := ring } } :=
  ⟨⟨h.work, h.taken, h.used, h.served⟩, h.lastUsed⟩

/-- Where the driver may go from a statement. -/
def After (d : BlkDev) (dev : Fin 2) (r : Request) (content : Nat → Sector) :
    Control ⊕ Done → Prop
  | .inl .idle => False
  | .inl (.inside line dev' r') => dev' = dev ∧ r' = r ∧ d.At r content line
  | .inl .halted => d.Quiet
  | .inr (.read dev' sector data) =>
    dev' = dev ∧ d.Quiet ∧ d.disk = content ∧ data = content sector
  | .inr (.write dev' sector data) =>
    dev' = dev ∧ d.Quiet ∧ d.disk = update content sector data

/-- One statement of `read_write_device`. -/
theorem At.drive (h : d.At r content line) :
    (d.drive dev r line).1.After dev r content (d.drive dev r line).2 := by
  cases line with
  | sector =>
      obtain ⟨hq, hdisk, -⟩ := h
      exact ⟨rfl, rfl, hq.prepare _ _ _, hdisk, rfl⟩
  | type =>
      obtain ⟨hq, hdisk, hs⟩ := h
      exact ⟨rfl, rfl, hq.prepare _ _ _, hdisk, hs, rfl⟩
  | data =>
      obtain ⟨hq, hdisk, hs, ht⟩ := h
      refine ⟨rfl, rfl, hq.prepare _ _ _, hdisk, hs, ht, ?_⟩
      intro data hout
      show r.out.getD d.req.data = data
      rw [hout]
      rfl
  | desc0 =>
      obtain ⟨hq, hdisk, hf⟩ := h
      exact ⟨rfl, rfl, hq.prepare _ _ _, hdisk,
        ⟨hf.sector, hf.type, hf.data⟩, rfl⟩
  | desc1 =>
      obtain ⟨hq, hdisk, hf, h0⟩ := h
      exact ⟨rfl, rfl, hq.prepare _ _ _, hdisk,
        ⟨hf.sector, hf.type, hf.data⟩, h0, rfl⟩
  | desc2 =>
      obtain ⟨hq, hdisk, hf, h0, h1⟩ := h
      refine ⟨rfl, rfl, hq.prepare _ _ _, hdisk, ?_⟩
      exact Filled.request ⟨hf.sector, hf.type, hf.data⟩ h0 h1 ⟨rfl, rfl, rfl⟩
  | ring =>
      obtain ⟨hq, hdisk, hr⟩ := h
      exact ⟨rfl, rfl, hq.prepare _ _ _, hdisk, hr,
        update_self ..⟩
  | index =>
      -- From here on the device may take the request.
      obtain ⟨hq, hdisk, hr, hring⟩ := h
      refine ⟨rfl, rfl, .queued ⟨?_, ?_⟩ hq.work ?_ ?_ hr hdisk, ?_⟩
      · exact congrArg (· + 1) hq.used
      · exact congrArg (· ++ [r]) hq.served.symm
      · exact congrArg (· + 1) hq.taken
      · show d.vq.availRing (slot d.lastAvail) = 0
        rw [hq.taken, hring]
      · exact congrArg (· + 1) hq.lastUsed
  | notify => exact ⟨rfl, rfl, h⟩
  | bump =>
      obtain ⟨hphase, hlast⟩ := h
      refine ⟨rfl, rfl, ?_, hlast⟩
      cases hphase with
      | queued owing work taken ring request disk =>
          exact .queued ⟨owing.used, owing.asked⟩ work taken ring request disk
      | taken owing work taken request disk =>
          exact .taken ⟨owing.used, owing.asked⟩ work taken request disk
      | moved owing work taken moved => exact .moved ⟨owing.used, owing.asked⟩ work taken moved
      | reported owing work taken moved =>
          exact .reported ⟨owing.used, owing.asked⟩ work taken moved
      | finished rested last moved =>
          exact .finished ⟨rested.work, rested.taken, rested.used, rested.served⟩ last moved
  | wait =>
      obtain ⟨hphase, hlast⟩ := h
      unfold BlkDev.drive
      dsimp only
      split
      · exact ⟨rfl, rfl, hphase, hlast⟩
      · next hbusy =>
          -- The index of the used ring is past the request, so it has been served.
          have hused : d.vq.usedIndex = d.vq.availIndex := by
            have heq : d.vq.lastUsedIndex = d.vq.usedIndex := by simpa [Virtq.isBusy] using hbusy
            rw [← heq, hlast]
          have served : ∀ ho : d.Owing r, False := fun ho =>
            add_one_ne_self _ (ho.used.trans hused.symm)
          cases hphase with
          | queued owing | taken owing | moved owing | reported owing => exact (served owing).elim
          | finished rested last moved => exact ⟨rfl, rfl, ⟨rested, hlast⟩, last, moved⟩
  | status =>
      obtain ⟨hq, -, hmoved⟩ := h
      unfold BlkDev.drive
      dsimp only
      split
      · exact hq
      · next h0 => exact ⟨rfl, rfl, hq, hmoved (not_not.mp h0)⟩
  | copy =>
      obtain ⟨hq, hmoved⟩ := h
      unfold BlkDev.drive
      unfold Moved at hmoved
      dsimp only
      split
      · next hout =>
          rw [hout] at hmoved
          exact ⟨rfl, hq, hmoved.2, hmoved.1⟩
      · next data hout =>
          rw [hout] at hmoved
          exact ⟨rfl, hq, hmoved⟩

end Drive

end BlkDev

/-! ## Runs -/

/-- A device after `virtio_blk_init_device`: the queue is cleared, and the page of
the request holds whatever it held. -/
def BlkDev.initial (sectors reqPaddr : Nat) (req : BlkReq) (disk : Nat → Sector) : BlkDev where
  sectors := sectors
  reqPaddr := reqPaddr
  req := req
  vq := Virtq.zero
  disk := disk
  lastAvail := 0
  work := .idle
  asked := []
  served := []

/-- The driver after `virtio_blk_init`. -/
def Blk.initial (sectors reqPaddr : Fin 2 → Nat) (req : Fin 2 → BlkReq)
    (disk : Fin 2 → Nat → Sector) : Blk where
  devices dev := .initial (sectors dev) (reqPaddr dev) (req dev) (disk dev)
  control := .idle
  done := []

/-- Runs of the driver and the two devices, in any order. -/
abbrev BlkRun (start b : Blk) : Prop := Reaches Blk.next (fun _ _ => True) start b

namespace Blk

/-- The device is not in use, and has the contents the calls have left. -/
def Free (init : Fin 2 → Nat → Sector) (b : Blk) (dev : Fin 2) : Prop :=
  (b.devices dev).Quiet ∧ (b.devices dev).disk = lastWritten init b.done dev

/-- What holds wherever the driver is. -/
def Stands (init : Fin 2 → Nat → Sector) (b : Blk) : Control → Prop
  | .idle => ∀ dev, b.Free init dev
  | .inside line dev r =>
    (∀ e, e ≠ dev → b.Free init e) ∧
      (b.devices dev).At r (lastWritten init b.done dev) line
  | .halted => ∀ dev, (b.devices dev).Quiet

structure Inv (init : Fin 2 → Nat → Sector) (b : Blk) : Prop where
  reads : ReadsLast init b.done
  counted : ∀ dev, (b.devices dev).Counted
  stands : b.Stands init b.control

section Inv

variable {b' : Blk} {c : BlkCall} {step : BlkDev.Step}

theorem Inv.initial : Inv init (initial sectors reqPaddr req init) where
  reads := .nil
  counted _ := ⟨rfl, rfl⟩
  stands _ := ⟨⟨⟨rfl, rfl, rfl, rfl⟩, rfl⟩, rfl⟩

@[simp] theorem setDevice_self : (b.setDevice dev d).devices dev = d :=
  update_self ..

theorem setDevice_of_ne (he : e ≠ dev) : (b.setDevice dev d).devices e = b.devices e :=
  update_of_ne he ..

theorem setDevice_counted (h : ∀ dev, (b.devices dev).Counted) (hd : d.Counted) (e : Fin 2) :
    ((b.setDevice dev d).devices e).Counted := by
  by_cases he : e = dev
  · subst he
    rwa [setDevice_self]
  · rw [setDevice_of_ne he]
    exact h e

theorem setDevice_quiet (h : ∀ e, e ≠ dev → (b.devices e).Quiet) (hd : d.Quiet) (e : Fin 2) :
    ((b.setDevice dev d).devices e).Quiet := by
  by_cases he : e = dev
  · subst he
    rwa [setDevice_self]
  · rw [setDevice_of_ne he]
    exact h e he

theorem Free.setDevice (h : b.Free init e) (he : e ≠ dev) : (b.setDevice dev d).Free init e := by
  unfold Free
  rw [setDevice_of_ne he]
  exact h

theorem Inv.call (h : Inv init b) (hidle : b.control = .idle) :
    Inv init { b with control := b.enter c } := by
  refine ⟨h.reads, h.counted, ?_⟩
  have hfree : ∀ dev, b.Free init dev := by
    have := h.stands
    rwa [hidle] at this
  show Stands init _ (b.enter c)
  unfold enter
  split
  · split
    · exact fun dev => (hfree dev).1
    · exact ⟨fun e _ => hfree e, (hfree _).1, (hfree _).2, trivial⟩
  · exact fun dev => (hfree dev).1

theorem Inv.drive (h : Inv init b) (hx : Blk.next .drive b = some b') : Inv init b' := by
  cases hc : b.control with
  | idle | halted => simp [Blk.next, hc] at hx
  | inside line dev r =>
      have hstands := h.stands
      rw [hc] at hstands
      obtain ⟨hfree, hat⟩ := hstands
      have hafter : ((b.devices dev).drive dev r line).1.After dev r (lastWritten init b.done dev)
        ((b.devices dev).drive dev r line).2 := hat.drive
      have hcount : ((b.devices dev).drive dev r line).1.Counted := (h.counted dev).drive
      simp only [Blk.next, hc] at hx
      generalize (b.devices dev).drive dev r line = out at hx hafter hcount
      obtain ⟨d, o⟩ := out
      cases o with
      | inl control =>
          cases hx
          refine ⟨h.reads, setDevice_counted h.counted hcount, ?_⟩
          cases control with
          | idle => exact hafter.elim
          | inside line' dev' r' =>
              obtain ⟨rfl, rfl, hat'⟩ := hafter
              refine ⟨fun e he => (hfree e he).setDevice he, ?_⟩
              show ((b.setDevice dev' d).devices dev').At _ _ _
              rw [setDevice_self]
              exact hat'
          | halted => exact setDevice_quiet (fun e he => (hfree e he).1) hafter
      | inr done =>
          cases hx
          cases done with
          | read dev' sector data =>
              obtain ⟨rfl, hq, hdisk, hdata⟩ := hafter
              refine ⟨h.reads.append ?_, setDevice_counted h.counted hcount, fun e => ?_⟩
              · intro _ _ _ heq
                cases heq
                exact hdata
              · refine ⟨setDevice_quiet (fun e he => (hfree e he).1) hq e, ?_⟩
                show ((b.setDevice dev' d).devices e).disk = lastWritten init (b.done ++ _) e
                rw [lastWritten_read]
                by_cases he : e = dev'
                · subst he
                  rw [setDevice_self, hdisk]
                · rw [setDevice_of_ne he]
                  exact (hfree e he).2
          | write dev' sector data =>
              obtain ⟨rfl, hq, hdisk⟩ := hafter
              refine ⟨h.reads.append ?_, setDevice_counted h.counted hcount, fun e => ?_⟩
              · intro _ _ _ heq
                cases heq
              · refine ⟨setDevice_quiet (fun e he => (hfree e he).1) hq e, ?_⟩
                show ((b.setDevice dev' d).devices e).disk = lastWritten init (b.done ++ _) e
                by_cases he : e = dev'
                · subst he
                  rw [setDevice_self, hdisk, lastWritten_write]
                · rw [setDevice_of_ne he, lastWritten_write_of_ne he]
                  exact (hfree e he).2

theorem Inv.serve (h : Inv init b) (hx : Blk.next (.serve dev step) b = some b') : Inv init b' := by
  obtain ⟨d, hd, rfl⟩ := Option.map_eq_some_iff.mp hx
  refine ⟨h.reads, setDevice_counted h.counted ((h.counted dev).serve hd), ?_⟩
  have hstands := h.stands
  show Stands init (b.setDevice dev d) b.control
  cases hc : b.control with
  | idle =>
      rw [hc] at hstands
      rw [(hstands dev).1.serve] at hd
      cases hd
  | halted =>
      rw [hc] at hstands
      rw [(hstands dev).serve] at hd
      cases hd
  | inside line dev' r =>
      rw [hc] at hstands
      obtain ⟨hfree, hat⟩ := hstands
      by_cases he : dev = dev'
      · subst he
        refine ⟨fun e he => (hfree e he).setDevice he, ?_⟩
        rw [setDevice_self]
        exact hat.serve hd
      · rw [(hfree dev he).1.serve] at hd
        cases hd

theorem Inv.next {a : BlkAction} (h : Inv init b) (hx : next a b = some b') : Inv init b' := by
  cases a with
  | call c =>
      cases hc : b.control with
      | idle =>
          simp only [Blk.next, hc, Option.some.injEq] at hx
          subst hx
          exact h.call hc
      | _ => simp [Blk.next, hc] at hx
  | drive => exact h.drive hx
  | serve dev step => exact h.serve hx

end Inv

end Blk

section Protocol

theorem BlkDev.At.asked
    (h : d.At r content line) : d.asked = d.served ∨ d.asked = d.served ++ [r] := by
  cases line with
  | notify | bump | wait =>
      cases h.1 with
      | queued owing | taken owing | moved owing | reported owing => exact Or.inr owing.asked
      | finished rested => exact Or.inl rested.served.symm
  | _ => exact Or.inl h.1.served.symm

/-- At most one request is outstanding. -/
theorem Blk.Inv.asked (h : b.Inv init) (dev : Fin 2) :
    (b.devices dev).asked = (b.devices dev).served ∨
      ∃ r, (b.devices dev).asked = (b.devices dev).served ++ [r] ∧
        ∀ e, e ≠ dev → (b.devices e).asked = (b.devices e).served := by
  have hs := h.stands
  cases hc : b.control with
  | idle =>
      rw [hc] at hs
      exact Or.inl (hs dev).1.served.symm
  | halted =>
      rw [hc] at hs
      exact Or.inl (hs dev).served.symm
  | inside line dev' r =>
      rw [hc] at hs
      obtain ⟨hfree, hat⟩ := hs
      by_cases he : dev = dev'
      · subst he
        cases hat.asked with
        | inl hall => exact Or.inl hall
        | inr hone => exact Or.inr ⟨r, hone, fun e he => (hfree e he).1.served.symm⟩
      · exact Or.inl (hfree dev he).1.served.symm

/-- In every run of the driver and the devices, through any number of requests:

- a device serves the requests made of it in order, and at most one of them, on
  one of the two devices, is outstanding; the indices of the queue count the
  requests made and served;
- between calls the three indices are equal;
- when the driver has left the wait loop, the device has served this request;
- each read has returned the bytes last written to its sector. -/
theorem blk_protocol (h : BlkRun (.initial sectors reqPaddr req init) b) :
    (∀ dev, ((b.devices dev).asked = (b.devices dev).served ∨
        ∃ r, (b.devices dev).asked = (b.devices dev).served ++ [r] ∧
          ∀ e, e ≠ dev → (b.devices e).asked = (b.devices e).served) ∧
      (b.devices dev).vq.availIndex = BitVec.ofNat 16 (b.devices dev).asked.length ∧
      (b.devices dev).vq.usedIndex = BitVec.ofNat 16 (b.devices dev).served.length) ∧
    (b.control = .idle → ∀ dev, (b.devices dev).vq.availIndex = (b.devices dev).vq.lastUsedIndex ∧
      (b.devices dev).vq.lastUsedIndex = (b.devices dev).vq.usedIndex) ∧
    (∀ dev r, b.control = .inside .status dev r →
      (b.devices dev).served = (b.devices dev).asked ∧ (b.devices dev).asked.getLast? = some r) ∧
    ReadsLast init b.done := by
  have hinv : Blk.Inv init b := h.invariant .initial fun hI _ hx => hI.next hx
  refine ⟨fun dev => ⟨hinv.asked dev, (hinv.counted dev).avail, (hinv.counted dev).used⟩, ?_, ?_,
    hinv.reads⟩
  · intro hc dev
    have hs := hinv.stands
    rw [hc] at hs
    have hq := (hs dev).1
    exact ⟨hq.lastUsed.symm, hq.lastUsed.trans hq.used.symm⟩
  · intro dev r hc
    have hs := hinv.stands
    rw [hc] at hs
    exact ⟨hs.2.1.served, hs.2.2.1⟩

end Protocol

/-- A sector of bytes. -/
def filled (v : Byte) : Sector := fun _ => v

/-- A sector is written and read again; the device is done with the second request
before the driver counts it. -/
theorem blk_protocol_write_read :
    ∃ b, BlkRun (.initial (fun _ => 8) (fun _ => 4096) (fun _ => ⟨0, 0, filled 0, 0⟩)
        (fun _ _ => filled 0)) b ∧
      b.done = [.write 1 5 (filled 7), .read 1 5 (filled 7)] ∧
      ReadsLast (fun _ _ => filled 0) b.done := by
  have hrun : (perform Blk.next (fun _ _ => True)
      (List.flatten [[.call ⟨1, 5, some (filled 7)⟩], List.replicate 10 .drive,
        [.serve 1 .take, .serve 1 .transfer, .drive, .serve 1 .report, .serve 1 .complete],
        List.replicate 3 .drive, [.call ⟨1, 5, none⟩], List.replicate 8 .drive,
        [.serve 1 .take, .serve 1 .transfer, .serve 1 .report, .serve 1 .complete],
        List.replicate 5 .drive])
      (.initial (fun _ => 8) (fun _ => 4096) (fun _ => ⟨0, 0, filled 0, 0⟩)
        (fun _ _ => filled 0))).any (fun b => decide (b.done =
          [.write 1 5 (filled 7), .read 1 5 (filled 7)])) = true := by decide +kernel
  obtain ⟨b, hb, hdone⟩ := Reaches.of_perform hrun
  exact ⟨b, hb, of_decide_eq_true hdone, (blk_protocol hb).2.2.2⟩

end Dmaos
