import Dmaos.Lib.Actions
import Dmaos.Virtio.Queue

/-!
# The driver of the keyboard

All 16 buffers are on the available ring from the start.  The device writes an
event into the next of them and puts it on the used ring; `virtio_input_poll_event`
takes it from there, puts the buffer back on the available ring, and only then
reads the event.

So the device may write over an event before it is read (`poll_overtaken`).  If it
does not, the polls deliver the key events in order, each once (`polls_deliver`).
-/

namespace Dmaos

open Actions Function

abbrev EV_KEY : Nat := 1

/-- `struct virtio_input_event`. -/
structure InputEvent where
  type : Nat
  code : Nat
  value : Nat
  deriving DecidableEq

/-- What a poll reports: `code` and `pressed`. -/
structure KeyPress where
  code : Nat
  pressed : Nat
  deriving DecidableEq

/-- The report of an event, if it is a key event. -/
def InputEvent.key (e : InputEvent) : Option KeyPress :=
  if e.type = EV_KEY then some ⟨e.code, if 0 < e.value then 1 else 0⟩ else none

/-- The statements of `virtio_input_poll_event`, with the descriptor once it is
known and the code once it is stored. -/
inductive Poll where
  /-- Between calls. -/
  | idle
  | id
  | bump (desc : Nat)
  | ring (desc : Nat)
  | index (desc : Nat)
  | notify (desc : Nat)
  | type (desc : Nat)
  | code (desc : Nat)
  | value (desc code : Nat)
  deriving DecidableEq

/-- `struct virtio_input_dev`, the device itself and the driver. -/
structure Input where
  vq : Virtq
  eventsPaddr : Nat
  /-- The event at an address. -/
  memory : Nat → InputEvent
  /-- The next entry of the available ring the device will take. -/
  lastAvail : BitVec 16
  /-- The event the device has written but not yet put on the used ring, and its
  descriptor. -/
  written : Option (Nat × InputEvent)
  /-- The events the device has put on the used ring. -/
  published : List InputEvent
  control : Poll
  /-- The reports of the polls that were successful. -/
  reports : List KeyPress

/-- A step of the system. -/
inductive InputAction where
  /-- A call of `virtio_input_poll_event` begins. -/
  | poll
  /-- The driver goes on. -/
  | drive
  /-- The device writes an event into the next buffer. -/
  | write (e : InputEvent)
  /-- The device puts it on the used ring. -/
  | publish

namespace Input

/-- `&input_dev.events[desc]`. -/
def evt (s : Input) (desc : Nat) : InputEvent := s.memory (s.eventsPaddr + desc * 8)

/-- What a statement of `virtio_input_poll_event` does. -/
def drive (s : Input) : Option Input :=
  match s.control with
  | .idle => none
  | .id => some { s with control := .bump (s.vq.usedRing (slot s.vq.lastUsedIndex)) }
  | .bump desc => some { s with vq := s.vq.bumpLastUsed, control := .ring desc }
  | .ring desc => some { s with vq := s.vq.putAvail desc, control := .index desc }
  | .index desc => some { s with vq := s.vq.bumpAvail, control := .notify desc }
  | .notify desc => some { s with control := .type desc }
  | .type desc =>
    some { s with control := if (s.evt desc).type = EV_KEY then .code desc else .idle }
  | .code desc => some { s with control := .value desc (s.evt desc).code }
  | .value desc code =>
    some { s with
      control := .idle
      reports := s.reports ++ [⟨code, if 0 < (s.evt desc).value then 1 else 0⟩] }

def next : InputAction → Input → Option Input
  | .poll, s =>
    if s.control = .idle then
      if s.vq.lastUsedIndex = s.vq.usedIndex then some s else some { s with control := .id }
    else none
  | .drive, s => s.drive
  | .write e, s =>
    if s.written.isSome ∨ s.lastAvail = s.vq.availIndex then none
    else
      let desc := s.vq.availRing (slot s.lastAvail)
      some { s with
        lastAvail := s.lastAvail + 1
        memory := update s.memory (s.vq.descs desc).addr e
        written := some (desc, e) }
  | .publish, s =>
    match s.written with
    | none => none
    | some (desc, e) =>
      some { s with vq := s.vq.putUsed desc, written := none, published := s.published ++ [e] }

/-- The driver after `virtio_input_init`. -/
def initial (eventsPaddr : Nat) : Input where
  vq := { Virtq.zero with
    descs := fun i => ⟨eventsPaddr + i * 8, 8, VIRTQ_DESC_F_WRITE, 0⟩
    availRing := fun i => i
    availIndex := 16 }
  eventsPaddr := eventsPaddr
  memory _ := ⟨0, 0, 0⟩
  lastAvail := 0
  written := none
  published := []
  control := .idle
  reports := []

/-- The descriptor that is back on the available ring while its event is still
to be read. -/
def unread (s : Input) : Option Nat :=
  match s.control with
  | .notify desc | .type desc | .code desc | .value desc _ => some desc
  | _ => none

/-- The device does not write over an event that is still to be read. -/
def Patient (a : InputAction) (s : Input) : Prop :=
  match a with
  | .write _ => s.unread ≠ some (s.vq.availRing (slot s.lastAvail))
  | _ => True

instance (a : InputAction) (s : Input) : Decidable (Patient a s) := by
  unfold Patient
  split <;> infer_instance

/-! ## Positions in the rings -/

section Positions

variable {k m : Nat}

theorem slot_ofNat (k : Nat) : (slot (BitVec.ofNat 16 k) : Nat) = k % 16 := by
  show (BitVec.ofNat 16 k).toNat % 16 = k % 16
  rw [BitVec.toNat_ofNat, Nat.mod_mod_of_dvd k (by decide)]

/-- Counters that are close to each other do not wrap around to the same index. -/
theorem ofNat_inj (hle : k ≤ m) (hnear : m ≤ k + 17)
    (h : BitVec.ofNat 16 k = BitVec.ofNat 16 m) : k = m := by
  have h := congrArg BitVec.toNat h
  rw [BitVec.toNat_ofNat, BitVec.toNat_ofNat] at h
  omega

theorem ofNat_add_one : BitVec.ofNat 16 k + 1 = BitVec.ofNat 16 (k + 1) :=
  (BitVec.ofNat_add k 1).symm

end Positions

/-! ## The invariant -/

/-- The events the device has written. -/
def sent (s : Input) : List InputEvent := s.published ++ (s.written.map Prod.snd).toList

/-- The counters of the driver: the entries it has taken from the used ring, and
those it has put on the available ring. -/
def Counts (s : Input) (taken offered : Nat) : Prop :=
  s.vq.lastUsedIndex = BitVec.ofNat 16 taken ∧ s.vq.availIndex = BitVec.ofNat 16 offered

/-- What holds in a poll that deals with event `e`, the one after the first `n`. -/
def At (s : Input) (n : Nat) (e : InputEvent) : Poll → Prop
  | .idle => False
  | .id => s.Counts n (n + 16)
  | .bump desc => s.Counts n (n + 16) ∧ desc = n % 16
  | .ring desc => s.Counts (n + 1) (n + 16) ∧ desc = n % 16
  | .index desc => s.Counts (n + 1) (n + 16) ∧ desc = n % 16
  | .notify desc => s.Counts (n + 1) (n + 17) ∧ desc = n % 16
  | .type desc => s.Counts (n + 1) (n + 17) ∧ desc = n % 16
  | .code desc => s.Counts (n + 1) (n + 17) ∧ desc = n % 16 ∧ e.type = EV_KEY
  | .value desc code =>
    s.Counts (n + 1) (n + 17) ∧ desc = n % 16 ∧ e.type = EV_KEY ∧ code = e.code

/-- The driver is between calls, or in one that deals with the next event. -/
def Stands (s : Input) (n : Nat) : Prop :=
  s.control = .idle ∧ n ≤ s.published.length ∧ s.Counts n (n + 16) ∨
    ∃ e, s.published[n]? = some e ∧ s.At n e s.control

/-- The first `n` events have been dealt with.  Entry and descriptor `k % 16` are
those of event `k`, through any number of rounds. -/
structure Inv (s : Input) (n : Nat) : Prop where
  availRing : ∀ i, s.vq.availRing i = i
  addr : ∀ i, (s.vq.descs i).addr = s.eventsPaddr + i * 8
  lastAvail : s.lastAvail = BitVec.ofNat 16 s.sent.length
  usedIndex : s.vq.usedIndex = BitVec.ofNat 16 s.published.length
  written : ∀ desc e, s.written = some (desc, e) → desc = s.published.length % 16
  usedRing : ∀ k, n ≤ k → k < s.published.length →
    s.vq.usedRing (slot (BitVec.ofNat 16 k)) = k % 16
  memory : ∀ k e, n ≤ k → s.sent[k]? = some e → s.evt (k % 16) = e
  near : s.sent.length ≤ n + 16
  reports : s.reports = (s.published.take n).filterMap InputEvent.key
  stands : s.Stands n

section Steps

variable {s s' : Input} {n : Nat} {e : InputEvent}

theorem Inv.initial (eventsPaddr : Nat) : (initial eventsPaddr).Inv 0 where
  availRing _ := rfl
  addr _ := rfl
  lastAvail := rfl
  usedIndex := rfl
  written _ _ h := by cases h
  usedRing k _ h := absurd h (Nat.not_lt_zero k)
  memory k e _ h := by simp [sent, Input.initial] at h
  near := by simp [sent, Input.initial]
  reports := rfl
  stands := Or.inl ⟨rfl, Nat.le_refl 0, rfl, rfl⟩

theorem length_published_le (s : Input) : s.published.length ≤ s.sent.length := by
  simp [sent]

theorem sent_of_published {k : Nat} (h : s.published[k]? = some e) : s.sent[k]? = some e := by
  obtain ⟨hk, -⟩ := List.getElem?_eq_some_iff.mp h
  rw [sent, List.getElem?_append_left hk, h]

/-- The event a poll deals with is in its buffer until the poll is done. -/
theorem Inv.evt (h : s.Inv n) (he : s.published[n]? = some e) : s.evt (n % 16) = e :=
  h.memory n e (Nat.le_refl n) (sent_of_published he)

/-- One more event has been dealt with. -/
theorem Inv.deal {reports : List KeyPress} (h : s.Inv n) (he : s.published[n]? = some e)
    (hcounts : s.Counts (n + 1) (n + 17)) (hreports : reports = s.reports ++ e.key.toList) :
    Inv { s with control := .idle, reports := reports } (n + 1) := by
  obtain ⟨hn, -⟩ := List.getElem?_eq_some_iff.mp he
  exact
    { availRing := h.availRing
      addr := h.addr
      lastAvail := h.lastAvail
      usedIndex := h.usedIndex
      written := h.written
      usedRing := fun k hk => h.usedRing k (by omega)
      memory := fun k e hk => h.memory k e (by omega)
      near := Nat.le_trans h.near (by omega)
      reports := by
        rw [List.take_add_one, he, List.filterMap_append, ← h.reports, hreports]
        cases hkey : e.key <;> simp [hkey]
      stands := Or.inl ⟨rfl, hn, hcounts⟩ }

theorem Inv.poll (h : s.Inv n) (hx : next .poll s = some s') : s'.Inv n := by
  simp only [Input.next] at hx
  split at hx
  · next hidle =>
      split at hx
      · cases hx
        exact h
      · next hne =>
          cases hx
          obtain ⟨-, hle, hcounts⟩ | ⟨e, -, hat⟩ := h.stands
          · have hlt : n < s.published.length := by
              refine Nat.lt_of_le_of_ne hle fun heq => hne ?_
              rw [hcounts.1, h.usedIndex, heq]
            exact ⟨h.availRing, h.addr, h.lastAvail, h.usedIndex, h.written, h.usedRing, h.memory,
              h.near, h.reports, Or.inr ⟨_, List.getElem?_eq_getElem hlt, hcounts⟩⟩
          · rw [hidle] at hat
            exact hat.elim
  · cases hx

/-- The driver goes on with the event; neither the used ring nor the descriptors
change. -/
theorem Inv.go {vq : Virtq} {control : Poll} (h : s.Inv n) (hring : ∀ i, vq.availRing i = i)
    (hdescs : vq.descs = s.vq.descs) (hused : vq.usedRing = s.vq.usedRing)
    (hindex : vq.usedIndex = s.vq.usedIndex) (he : s.published[n]? = some e)
    (hat : At { s with vq := vq, control := control } n e control) :
    Inv { s with vq := vq, control := control } n where
  availRing := hring
  addr i := (congrArg (fun f => (f i).addr) hdescs).trans (h.addr i)
  lastAvail := h.lastAvail
  usedIndex := hindex.trans h.usedIndex
  written := h.written
  usedRing k hk hlt := (congrFun hused _).trans (h.usedRing k hk hlt)
  memory := h.memory
  near := h.near
  reports := h.reports
  stands := Or.inr ⟨e, he, hat⟩

theorem Inv.drive (h : s.Inv n) (hx : s.drive = some s') : s'.Inv n ∨ s'.Inv (n + 1) := by
  obtain ⟨hidle, -⟩ | ⟨e, he, hat⟩ := h.stands
  · simp [Input.drive, hidle] at hx
  · obtain ⟨hlt, -⟩ := List.getElem?_eq_some_iff.mp he
    have hevt := h.evt he
    cases hc : s.control with
    | idle =>
        rw [hc] at hat
        exact hat.elim
    | id =>
        simp only [Input.drive, hc, Option.some.injEq] at hx
        rw [hc] at hat
        subst hx
        refine Or.inl (h.go h.availRing rfl rfl rfl he ⟨hat, ?_⟩)
        rw [hat.1, h.usedRing n (Nat.le_refl n) hlt]
    | bump desc =>
        simp only [Input.drive, hc, Option.some.injEq] at hx
        rw [hc] at hat
        obtain ⟨⟨hlast, havail⟩, hdesc⟩ := hat
        subst hx
        refine Or.inl (h.go h.availRing rfl rfl rfl he ⟨⟨?_, havail⟩, hdesc⟩)
        show s.vq.lastUsedIndex + 1 = _
        rw [hlast, ofNat_add_one]
    | ring desc =>
        simp only [Input.drive, hc, Option.some.injEq] at hx
        rw [hc] at hat
        obtain ⟨⟨hlast, havail⟩, hdesc⟩ := hat
        subst hx
        refine Or.inl (h.go (fun i => ?_) rfl rfl rfl he ⟨⟨hlast, havail⟩, hdesc⟩)
        -- The entry of this round had the same descriptor in the last one.
        show update s.vq.availRing (slot s.vq.availIndex) desc i = i
        by_cases hi : i = slot s.vq.availIndex
        · rw [hi, update_self, havail, slot_ofNat, hdesc, Nat.add_mod_right]
        · rw [update_of_ne hi, h.availRing]
    | index desc =>
        simp only [Input.drive, hc, Option.some.injEq] at hx
        rw [hc] at hat
        obtain ⟨⟨hlast, havail⟩, hdesc⟩ := hat
        subst hx
        refine Or.inl (h.go h.availRing rfl rfl rfl he ⟨⟨hlast, ?_⟩, hdesc⟩)
        show s.vq.availIndex + 1 = _
        rw [havail, ofNat_add_one]
    | notify desc =>
        simp only [Input.drive, hc, Option.some.injEq] at hx
        rw [hc] at hat
        subst hx
        exact Or.inl (h.go h.availRing rfl rfl rfl he hat)
    | type desc =>
        simp only [Input.drive, hc, Option.some.injEq] at hx
        rw [hc] at hat
        obtain ⟨hcounts, rfl⟩ := hat
        rw [hevt] at hx
        subst hx
        split
        · next htype => exact Or.inl (h.go h.availRing rfl rfl rfl he ⟨hcounts, rfl, htype⟩)
        · next htype =>
            refine Or.inr (h.deal he hcounts ?_)
            rw [InputEvent.key, if_neg htype, Option.toList_none, List.append_nil]
    | code desc =>
        simp only [Input.drive, hc, Option.some.injEq] at hx
        rw [hc] at hat
        obtain ⟨hcounts, rfl, htype⟩ := hat
        rw [hevt] at hx
        subst hx
        exact Or.inl (h.go h.availRing rfl rfl rfl he ⟨hcounts, rfl, htype, rfl⟩)
    | value desc code =>
        simp only [Input.drive, hc, Option.some.injEq] at hx
        rw [hc] at hat
        obtain ⟨hcounts, rfl, htype, rfl⟩ := hat
        rw [hevt] at hx
        subst hx
        refine Or.inr (h.deal he hcounts ?_)
        rw [InputEvent.key, if_pos htype, Option.toList_some]

/-- The device has a buffer to write to, and it is not that of an event that is
still to be read. -/
theorem Inv.room (h : s.Inv n) (hp : Patient (.write e) s)
    (hne : s.lastAvail ≠ s.vq.availIndex) : s.sent.length < n + 16 := by
  refine Nat.lt_of_le_of_ne h.near fun hfull => ?_
  have hidle : s.vq.availIndex ≠ BitVec.ofNat 16 (n + 16) := fun heq =>
    hne (by rw [h.lastAvail, hfull, heq])
  have hback : s.unread ≠ some (n % 16) := by
    have hslot : s.vq.availRing (slot s.lastAvail) = n % 16 := by
      rw [h.availRing, h.lastAvail, slot_ofNat, hfull, Nat.add_mod_right]
    rw [← hslot]
    exact hp
  obtain ⟨-, -, hcounts⟩ | ⟨e, -, hat⟩ := h.stands
  · exact hidle hcounts.2
  · unfold unread at hback
    cases hc : s.control with
    | idle =>
        rw [hc] at hat
        exact hat
    | id =>
        rw [hc] at hat
        exact hidle hat.2
    | bump desc | ring desc | index desc =>
        rw [hc] at hat
        exact hidle hat.1.2
    | notify desc | type desc =>
        rw [hc] at hat hback
        exact hback (congrArg some hat.2)
    | code desc | value desc code =>
        rw [hc] at hat hback
        exact hback (congrArg some hat.2.1)

theorem Inv.write (h : s.Inv n) (hp : Patient (.write e) s) (hx : next (.write e) s = some s') :
    s'.Inv n := by
  simp only [Input.next] at hx
  split at hx
  · cases hx
  · next hcond =>
      rw [not_or] at hcond
      obtain ⟨hw, hne⟩ := hcond
      have hnone : s.written = none := by simpa using hw
      have hsent : s.sent = s.published := by simp [sent, hnone]
      have hroom := h.room hp hne
      have hdesc : s.vq.availRing (slot s.lastAvail) = s.published.length % 16 := by
        rw [h.availRing, h.lastAvail, slot_ofNat, hsent]
      rw [hsent] at hroom
      rw [hdesc] at hx
      cases hx
      have hmem : ∀ k e', n ≤ k → (s.published ++ [e])[k]? = some e' →
          update s.memory (s.vq.descs (s.published.length % 16)).addr e
            (s.eventsPaddr + k % 16 * 8) = e' := by
        intro k e' hk he'
        rw [h.addr]
        cases Nat.lt_or_ge k s.published.length with
        | inl hlt =>
            rw [List.getElem?_append_left hlt, ← hsent] at he'
            rw [update_of_ne (by omega)]
            exact h.memory k e' hk he'
        | inr hge =>
            obtain ⟨hlt, hval⟩ := List.getElem?_eq_some_iff.mp he'
            rw [List.length_append, List.length_singleton] at hlt
            obtain rfl : k = s.published.length := by omega
            rw [update_self, ← hval, List.getElem_concat_length rfl]
      exact
        { availRing := h.availRing
          addr := h.addr
          lastAvail := by
            show s.lastAvail + 1 = BitVec.ofNat 16 (s.published ++ [e]).length
            rw [h.lastAvail, hsent, ofNat_add_one, List.length_append, List.length_singleton]
          usedIndex := h.usedIndex
          written := fun desc e' heq => by
            cases heq
            rfl
          usedRing := h.usedRing
          memory := hmem
          near := by
            show (s.published ++ [e]).length ≤ n + 16
            rw [List.length_append, List.length_singleton]
            omega
          reports := h.reports
          stands := h.stands }

theorem Inv.le_published (h : s.Inv n) : n ≤ s.published.length := by
  obtain ⟨-, hle, -⟩ | ⟨e, he, -⟩ := h.stands
  · exact hle
  · exact Nat.le_of_lt (List.getElem?_eq_some_iff.mp he).1

theorem Inv.publish (h : s.Inv n) (hx : next .publish s = some s') : s'.Inv n := by
  simp only [Input.next] at hx
  split at hx
  · cases hx
  · next desc e hw =>
      have hle := h.le_published
      have hsent : s.sent = s.published ++ [e] := by simp [sent, hw]
      have hdesc := h.written desc e hw
      cases hx
      have hsent' : sent { s with
          vq := s.vq.putUsed desc, written := none, published := s.published ++ [e] } =
          s.sent := by simp [sent, hw]
      exact
        { availRing := h.availRing
          addr := h.addr
          lastAvail := by rw [hsent']; exact h.lastAvail
          usedIndex := by
            show s.vq.usedIndex + 1 = BitVec.ofNat 16 (s.published ++ [e]).length
            rw [h.usedIndex, ofNat_add_one, List.length_append, List.length_singleton]
          written := fun desc e' heq => by cases heq
          usedRing := fun k hk hlt => by
            show update s.vq.usedRing (slot s.vq.usedIndex) desc
              (slot (BitVec.ofNat 16 k)) = k % 16
            rw [List.length_append, List.length_singleton] at hlt
            by_cases hk : slot (BitVec.ofNat 16 k) = slot s.vq.usedIndex
            · rw [hk, update_self, hdesc, ← slot_ofNat k, hk, h.usedIndex, slot_ofNat]
            · have hne : k ≠ s.published.length := by
                rintro rfl
                exact hk (by rw [h.usedIndex])
              rw [update_of_ne hk, h.usedRing k (by omega) (by omega)]
          memory := by rw [hsent']; exact h.memory
          near := by rw [hsent']; exact h.near
          reports := by
            show s.reports = ((s.published ++ [e]).take n).filterMap InputEvent.key
            rw [List.take_append_of_le_length hle, h.reports]
          stands := by
            obtain ⟨hidle, -, hcounts⟩ | ⟨e', he, hat⟩ := h.stands
            · refine Or.inl ⟨hidle, ?_, hcounts⟩
              show n ≤ (s.published ++ [e]).length
              rw [List.length_append]
              omega
            · refine Or.inr ⟨e', ?_, hat⟩
              show (s.published ++ [e])[n]? = some e'
              rw [List.getElem?_append_left (List.getElem?_eq_some_iff.mp he).1, he] }

theorem Inv.next {a : InputAction} (h : s.Inv n) (hp : Patient a s) (hx : next a s = some s') :
    ∃ n, s'.Inv n := by
  cases a with
  | poll => exact ⟨n, h.poll hx⟩
  | drive =>
      cases h.drive hx with
      | inl h => exact ⟨n, h⟩
      | inr h => exact ⟨n + 1, h⟩
  | write e => exact ⟨n, h.write hp hx⟩
  | publish => exact ⟨n, h.publish hx⟩

end Steps

/-- In every run in which the device does not write over an event that is still to
be read, the reports of the polls are the key events the device has put on the used
ring, in order and each once: those of the first `n` events, and of all of them when
a poll between calls would find the used ring empty. -/
theorem polls_deliver {eventsPaddr : Nat} {s : Input}
    (h : Reaches next Patient (initial eventsPaddr) s) :
    ∃ n, n ≤ s.published.length ∧ s.reports = (s.published.take n).filterMap InputEvent.key ∧
      (s.control = .idle → s.vq.lastUsedIndex = s.vq.usedIndex → n = s.published.length) := by
  obtain ⟨n, hinv⟩ : ∃ n, s.Inv n :=
    h.invariant (I := fun s => ∃ n, s.Inv n) ⟨0, .initial eventsPaddr⟩
      fun ⟨_, hI⟩ hP hx => hI.next hP hx
  have hle := hinv.le_published
  refine ⟨n, hle, hinv.reports, fun hidle heq => ?_⟩
  have hnear : s.published.length ≤ n + 16 := Nat.le_trans (length_published_le s) hinv.near
  obtain ⟨-, -, hcounts⟩ | ⟨e, -, hat⟩ := hinv.stands
  · refine ofNat_inj hle (by omega) ?_
    rw [← hcounts.1, heq, hinv.usedIndex]
  · rw [hidle] at hat
    exact hat.elim

/-- A key is pressed while the device reports a movement that is no key event. -/
theorem polls_deliver_press :
    ∃ s, Reaches next Patient (initial 4096) s ∧
      s.published = [⟨1, 30, 1⟩, ⟨2, 0, 5⟩] ∧ s.reports = [⟨30, 1⟩] ∧
      ∃ n, n ≤ s.published.length ∧
        s.reports = (s.published.take n).filterMap InputEvent.key := by
  have hrun : (perform next Patient
      [.write ⟨1, 30, 1⟩, .publish, .poll, .drive, .drive, .write ⟨2, 0, 5⟩, .drive, .drive,
        .publish, .drive, .drive, .drive, .drive, .poll, .drive, .drive, .drive, .drive, .drive,
        .drive] (initial 4096)).any (fun s => decide (s.published = [⟨1, 30, 1⟩, ⟨2, 0, 5⟩] ∧
          s.reports = [⟨30, 1⟩])) = true := by decide +kernel
  obtain ⟨s, hs, hQ⟩ := Reaches.of_perform hrun
  obtain ⟨hpub, hrep⟩ := of_decide_eq_true hQ
  obtain ⟨n, hn, hreports, -⟩ := polls_deliver hs
  exact ⟨s, hs, hpub, hrep, n, hn, hreports⟩

/-- Sixteen keys are pressed.  A poll takes the event of the first from the used
ring and gives its buffer back; the device writes the seventeenth event there, and
then the poll reads it. -/
theorem poll_overtaken :
    ∃ s, Reaches next (fun _ _ => True) (initial 4096) s ∧
      s.published = (List.range 16).map (fun i => ⟨EV_KEY, i + 1, 1⟩) ∧
      s.reports = [⟨17, 1⟩] ∧
      ∀ n, s.reports ≠ (s.published.take n).filterMap InputEvent.key := by
  have hrun : (perform next (fun _ _ => True)
      (List.flatten [(List.range 16).flatMap (fun i => [.write ⟨EV_KEY, i + 1, 1⟩, .publish]),
        [.poll], List.replicate 5 .drive, [.write ⟨EV_KEY, 17, 1⟩], List.replicate 3 .drive])
      (initial 4096)).any (fun s =>
        decide (s.published = (List.range 16).map (fun i => ⟨EV_KEY, i + 1, 1⟩) ∧
          s.reports = [⟨17, 1⟩])) = true := by decide +kernel
  obtain ⟨s, hs, hQ⟩ := Reaches.of_perform hrun
  obtain ⟨hpub, hrep⟩ := of_decide_eq_true hQ
  refine ⟨s, hs, hpub, hrep, fun n heq => ?_⟩
  rw [hrep, hpub] at heq
  cases n with
  | zero => cases heq
  | succ n => simp [List.range_succ_eq_map, InputEvent.key] at heq

end Input

end Dmaos
