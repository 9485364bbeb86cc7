import Dmaos.Handle.Steady
import Dmaos.Refine.Bytes

/-!
# Writes compose

Writing `a ++ b` with one call of `writei` leaves the device and the inode cache as
writing `a` and then `b` does.  The two runs differ in three ways.  A block that
holds the end of `a` and the beginning of `b` is stored once in the one run and
twice in the other.  The size of the inode is set once or twice, and so the inode on
the device is stored at different times; while it is behind in one run, the states
agree but for the size in the slot and the bytes of the inode on the device
(`Alike`).  The calls of `write_block` are different.

The blocks are allocated in the same order, since `bmap_alloc` reads neither the
size nor the inode on the device.
-/

namespace Dmaos

open Fault KState Vol

variable {D : Prop} {dev n b i bn k off len stop : Nat} {ip : Fin NINODE} {s t s' s₁ : KState}
  {buf src : Buf} {L : Layout} {S : Nat → Prop} {σ : Slot} {u : Unit} {r : Int}

/-! ## States that agree -/

/-- The states agree, but for the calls of `write_block`; and if `D`, but for the
size in slot `ip` and the bytes of inode `n` on device `dev`. -/
structure Alike (D : Prop) (dev n : Nat) (ip : Fin NINODE) (s t : KState) : Prop where
  sb : t.sb = s.sb
  tables : (t.mounts, t.fileTable, t.procs, t.current) =
    (s.mounts, s.fileTable, s.procs, s.current)
  capacity : ∀ d, (t.disk d).capacity = (s.disk d).capacity
  blk : ∀ d b i, ¬ (D ∧ d = dev ∧ b = iblock (s.sb dev) n ∧ ioffset n ≤ i ∧
    i < ioffset n + dinodeSize) → t.blk d b i = s.blk d b i
  slot : ∀ j, t.inodeTable j = { s.inodeTable j with dinode := (t.inodeTable j).dinode }
  dinode : ∀ j i, ¬ (D ∧ j = ip ∧ 8 ≤ i ∧ i < 12) →
    (t.inodeTable j).dinode i = (s.inodeTable j).dinode i

namespace Alike

variable {u : KState}

theorem refl (s : KState) : Alike D dev n ip s s :=
  ⟨rfl, rfl, fun _ => rfl, fun _ _ _ _ => rfl, fun _ => rfl, fun _ _ _ => rfl⟩

theorem trans (h₁ : Alike D dev n ip s t) (h₂ : Alike D dev n ip t u) : Alike D dev n ip s u where
  sb := h₂.sb.trans h₁.sb
  tables := h₂.tables.trans h₁.tables
  capacity d := (h₂.capacity d).trans (h₁.capacity d)
  blk d b i hi := by
    rw [h₂.blk d b i (by rw [h₁.sb]; exact hi), h₁.blk d b i hi]
  slot j := by rw [h₂.slot j, h₁.slot j]
  dinode j i hi := (h₂.dinode j i hi).trans (h₁.dinode j i hi)

theorem mono {D' : Prop} (h : Alike D dev n ip s t) (hD : D → D') : Alike D' dev n ip s t :=
  { h with
    blk := fun d b i hi => h.blk d b i fun hc => hi ⟨hD hc.1, hc.2⟩
    dinode := fun j i hi => h.dinode j i fun hc => hi ⟨hD hc.1, hc.2⟩ }

/-- Nothing but the calls of `write_block` is different. -/
theorem eq (h : Alike False dev n ip s t) : t = { s with writes := t.writes } := by
  have hdisk : t.disk = s.disk := by
    funext d
    have hblk : (t.disk d).blk = (s.disk d).blk :=
      funext fun b => funext fun i => h.blk d b i fun hc => hc.1
    have hcap := h.capacity d
    cases hd : t.disk d
    cases hd' : s.disk d
    simp_all
  have htable : t.inodeTable = s.inodeTable := by
    funext j
    rw [h.slot j, show (t.inodeTable j).dinode = (s.inodeTable j).dinode from
      funext fun i => h.dinode j i fun hc => hc.1]
  have htables := h.tables
  have hsb := h.sb
  cases t
  simp only [Prod.mk.injEq] at htables
  simp_all

theorem addr (h : Alike D dev n ip s t) (i : Nat) :
    (t.inodeTable ip).dinode.addr i = (s.inodeTable ip).dinode.addr i :=
  Buf.le32_congr fun j _ => h.dinode ip _ (by omega)

theorem dev_eq (h : Alike D dev n ip s t) (j : Fin NINODE) :
    (t.inodeTable j).dev = (s.inodeTable j).dev := by rw [h.slot j]

theorem inum_eq (h : Alike D dev n ip s t) (j : Fin NINODE) :
    (t.inodeTable j).inum = (s.inodeTable j).inum := by rw [h.slot j]

end Alike

/-! ## Blocks -/

theorem KState.putBlock_blk_apply (s : KState) (d b : Nat) (buf : Buf) (d' b' : Nat) :
    (s.putBlock d b buf).blk d' b' = if d' = d ∧ b' = b then buf else s.blk d' b' := by
  by_cases hd : d' = d
  · subst hd
    rw [putBlock_blk, Function.update_apply]
    simp
  · rw [if_neg fun hc => hd hc.1]
    unfold blk
    rw [putBlock_disk_of_ne hd]

theorem KState.putBlock_capacity (s : KState) (d b : Nat) (buf : Buf) (d' : Nat) :
    ((s.putBlock d b buf).disk d').capacity = (s.disk d').capacity := by
  by_cases hd : d' = d
  · subst hd
    simp [putBlock]
  · rw [putBlock_disk_of_ne hd]

section Blocks

variable {d : Nat} {buf' : Buf}

/-- The block of the inode is the only one that may be different. -/
theorem Alike.readBlock (h : Alike D dev n ip s t)
    (hne : ¬ (d = dev ∧ b % 2 ^ 31 = iblock (s.sb dev) n)) :
    Mimics (Alike D dev n ip) (readBlock d b) (readBlock d b) s t := by
  intro buf s' hx
  unfold Dmaos.readBlock at hx ⊢
  split_ifs at hx with hc
  cases hx
  rw [h.capacity, if_pos hc]
  refine ⟨t, ?_, h⟩
  have hblk : t.blk d (b % 2 ^ 31) = s.blk d (b % 2 ^ 31) :=
    funext fun i => h.blk d _ i fun hi => hne ⟨hi.2.1, hi.2.2.1⟩
  rw [hblk]

theorem Alike.putBlock (h : Alike D dev n ip s t)
    (hbuf : ∀ i, ¬ (D ∧ d = dev ∧ b = iblock (s.sb dev) n ∧ ioffset n ≤ i ∧
      i < ioffset n + dinodeSize) → buf' i = buf i) :
    Alike D dev n ip (s.putBlock d b buf) (t.putBlock d b buf') where
  sb := h.sb
  tables := h.tables
  capacity d' := by rw [putBlock_capacity, putBlock_capacity, h.capacity]
  blk d' b' i hi := by
    rw [putBlock_blk_apply, putBlock_blk_apply]
    split_ifs with hc
    · obtain ⟨rfl, rfl⟩ := hc
      exact hbuf i hi
    · exact h.blk d' b' i hi
  slot := h.slot
  dinode := h.dinode

theorem Alike.writeBlock (h : Alike D dev n ip s t)
    (hbuf : ∀ i, ¬ (D ∧ d = dev ∧ b % 2 ^ 31 = iblock (s.sb dev) n ∧ ioffset n ≤ i ∧
      i < ioffset n + dinodeSize) → buf' i = buf i) :
    Mimics (Alike D dev n ip) (writeBlock d b buf) (writeBlock d b buf') s t := by
  intro v s' hx
  unfold Dmaos.writeBlock at hx ⊢
  split_ifs at hx with hc
  cases hx
  rw [h.capacity, if_pos hc]
  exact ⟨_, rfl, h.putBlock hbuf⟩

/-- `iupdate` stores the slot, and the inodes on the device agree where the slots
do. -/
theorem Alike.iupdate {E : Prop} (h : Alike D dev n ip s t) (hh : Holds dev n ip s)
    (hlt : iblock (s.sb dev) n < 2 ^ 31) (hE : ∀ i, ¬ (E ∧ 8 ≤ i ∧ i < 12) →
      (t.inodeTable ip).dinode i = (s.inodeTable ip).dinode i) :
    Mimics (Alike E dev n ip) (iupdate ip) (iupdate ip) s t := by
  refine .after (a := s.inodeTable ip) (b := t.inodeTable ip) rfl rfl ?_
  refine .after (a := s.sb _) (b := t.sb _) rfl rfl ?_
  rw [h.sb, h.dev_eq, h.inum_eq, hh.dev_eq, hh.inum_eq]
  intro v s' hx
  obtain ⟨buf, s₁, hb, hx⟩ := bind_ok.mp hx
  unfold Dmaos.readBlock at hb
  split_ifs at hb with hc
  cases hb
  unfold Dmaos.writeBlock at hx
  rw [if_pos hc] at hx
  cases hx
  have hc' : dev < 2 ∧ iblock (s.sb dev) n % 2 ^ 31 < (t.disk dev).capacity := by
    rwa [h.capacity]
  refine ⟨_, bind_ok.mpr ⟨_, t, if_pos hc', if_pos hc'⟩, ?_⟩
  rw [Nat.mod_eq_of_lt hlt]
  exact {
    sb := h.sb
    tables := h.tables
    capacity := fun d' => by rw [putBlock_capacity, putBlock_capacity, h.capacity]
    blk := fun d' b' i hi => by
      rw [putBlock_blk_apply, putBlock_blk_apply]
      split_ifs with heq
      · obtain ⟨rfl, rfl⟩ := heq
        unfold Buf.copy
        split_ifs with hin
        · exact hE _ (fun hc => hi ⟨hc.1, rfl, rfl, hin⟩)
        · exact h.blk d' _ i fun hc => hin hc.2.2.2
      · exact h.blk d' b' i fun hc => heq ⟨hc.2.1, hc.2.2.1⟩
    slot := h.slot
    dinode := fun j i hi => by
      by_cases hj : j = ip
      · subst hj
        exact hE i fun hc => hi ⟨hc.1, rfl, hc.2⟩
      · exact h.dinode j i fun hc => hj hc.2.1 }

theorem Alike.putDinode {x y : Dinode} (h : Alike D dev n ip s t)
    (hxy : ∀ i, ¬ (D ∧ 8 ≤ i ∧ i < 12) → y i = x i) :
    Alike D dev n ip (s.putInode ip { s.inodeTable ip with dinode := x })
      (t.putInode ip { t.inodeTable ip with dinode := y }) where
  sb := h.sb
  tables := h.tables
  capacity := h.capacity
  blk := h.blk
  slot j := by
    by_cases hj : j = ip
    · subst hj
      rw [putInode_self, putInode_self, h.slot j]
    · rw [putInode_of_ne hj, putInode_of_ne hj]
      exact h.slot j
  dinode j i hi := by
    by_cases hj : j = ip
    · subst hj
      rw [putInode_self, putInode_self]
      exact hxy i fun hc => hi ⟨hc.1, rfl, hc.2⟩
    · rw [putInode_of_ne hj, putInode_of_ne hj]
      exact h.dinode j i hi

/-- A change of the slot that stores four bytes. -/
theorem Alike.setDinode {o v : Nat} (h : Alike D dev n ip s t) :
    Mimics (Alike D dev n ip) (setDinode ip (·.put32 o v)) (setDinode ip (·.put32 o v)) s t := by
  intro u s' hx
  obtain rfl := setDinode_ok hx
  exact ⟨_, rfl, h.putDinode fun i hi => Buf.put32_agree fun _ => h.dinode ip i
    fun hc => hi ⟨hc.1, hc.2.2⟩⟩

end Blocks

/-! ## The block map -/

section Map

theorem ballocScan_mimics {R : KState → KState → Prop} (h : R s t) :
    ∀ {k b : Nat}, Mimics R (ballocScan buf k b) (ballocScan buf k b) s t
  | 0, _ => fun _ _ hx => absurd hx throw_ok
  | _ + 1, _ => .ite (fun _ _ _ hx => absurd hx throw_ok) fun _ =>
      .ite (fun _ => ballocScan_mimics h) fun _ => .pure h

theorem Alike.balloc (h : Alike D dev n ip s t) (hL : L.Fits (s.sb dev)) (hlt : n < L.ninodes) :
    Mimics (Alike D dev n ip) (balloc dev) (balloc dev) s t := by
  refine .after (a := s.sb dev) (b := t.sb dev) rfl rfl ?_
  rw [h.sb]
  have hne : ¬ (dev = dev ∧ (s.sb dev).bmapstart % 2 ^ 31 = iblock (s.sb dev) n) := by
    rw [Nat.mod_eq_of_lt hL.bmap_lt]
    exact fun hc => hL.inode_bmap hlt hc.2.symm
  refine .bind (h.readBlock hne) fun buf s₁ t₁ _ h₁ => ?_
  refine .bind (ballocScan_mimics h₁) fun b s₂ t₂ _ h₂ => ?_
  refine .bind (h₂.writeBlock fun _ _ => rfl) fun _ s₃ t₃ _ h₃ => ?_
  exact .bind (h₃.writeBlock fun _ _ => rfl) fun _ s₄ t₄ _ h₄ => .pure h₄

theorem Alike.addrAlloc (h : Alike D dev n ip s t) (ho : Owner L S dev n ip s) :
    Mimics (Alike D dev n ip) (addrAlloc ip i) (addrAlloc ip i) s t := by
  refine .after (a := s.inodeTable ip) (b := t.inodeTable ip) rfl rfl ?_
  rw [h.addr, h.dev_eq, ho.dev_eq]
  refine .ite (fun _ => ?_) fun _ => .pure h
  refine .bind (h.balloc ho.fits ho.lt) fun b s₁ t₁ hb h₁ => ?_
  refine .bind h₁.setDinode fun _ s₂ t₂ hset h₂ => ?_
  have ht₁ : Touches dev ip s s₁ := LocalOn.balloc.of_ok ho.dev_eq hb
  have ht₂ := LocalOn.of_ok (LocalOn.setDinode _) (ho.toHolds.of_touches ht₁).dev_eq hset
  have ht := ht₁.trans ht₂
  refine .bind (h₂.iupdate (E := D) (ho.toHolds.of_touches ht) ?_ ?_) fun _ s₃ t₃ _ h₃ => .pure h₃
  · rw [ht.sb]
    exact ho.fits.inode_lt ho.lt
  · exact fun i hi => h₂.dinode ip i fun hc => hi ⟨hc.1, hc.2.2⟩

/-- A block of data is not where the inodes are. -/
theorem Layout.Fits.ne_iblock {sb : Superblock} (h : L.Fits sb) (hlt : n < L.ninodes)
    (hb : L.IsData b) : b % 2 ^ 31 ≠ iblock sb n := by
  have := h.data_lt hb
  rw [Nat.mod_eq_of_lt (by omega)]
  rintro rfl
  exact h.inode_data hlt hb

theorem Alike.entryAlloc {table : Nat} (h : Alike D dev n ip s t) (ho : Owner L S dev n ip s)
    (htable : L.IsData table) :
    Mimics (Alike D dev n ip) (entryAlloc ip table i) (entryAlloc ip table i) s t := by
  refine .after (a := s.inodeTable ip) (b := t.inodeTable ip) rfl rfl ?_
  rw [h.dev_eq, ho.dev_eq]
  refine .bind (h.readBlock fun hc => ho.fits.ne_iblock ho.lt htable hc.2)
    fun buf s₁ t₁ hb h₁ => ?_
  obtain ⟨rfl, -⟩ := readBlock_ok hb
  refine .ite (fun _ => ?_) fun _ => .pure h₁
  refine .bind (h₁.balloc ho.fits ho.lt) fun b s₂ t₂ _ h₂ => ?_
  exact .bind (h₂.writeBlock fun _ _ => rfl) fun _ s₃ t₃ _ h₃ => .pure h₃

theorem Grown.isData {P : Slot → Prop}
    (h : Grown L S dev n ip P σ b s s') (hσ : σ.Valid) : L.IsData b := by
  rw [← h.ptr_eq]
  exact h.own.region h.mem hσ (by rw [h.ptr_eq]; exact h.ne)

/-- The blocks are allocated in the same order. -/
theorem Alike.bmapAlloc (h : Alike D dev n ip s t) (ho : Owner L S dev n ip s) :
    Mimics (Alike D dev n ip) (bmapAlloc ip bn) (bmapAlloc ip bn) s t := by
  unfold Dmaos.bmapAlloc
  refine .ite (fun _ => h.addrAlloc ho) fun h1 => .ite (fun h2 => ?_) fun _ =>
    .ite (fun h3 => ?_) fun _ => fun a s' hx => absurd hx throw_ok
  · refine .bind (h.addrAlloc ho) fun table s₁ t₁ ha h₁ => ?_
    have hg := addrAlloc_ok ho (show 12 < 14 by omega) ha
    exact h₁.entryAlloc hg.toOwner (hg.isData (show 12 < 14 by omega))
  · rw [NDIRECT_eq, NINDIRECT_eq, NDINDIRECT_eq] at *
    refine .bind (h.addrAlloc ho) fun root s₁ t₁ ha h₁ => ?_
    have hg := addrAlloc_ok ho (show 13 < 14 by omega) ha
    refine .bind (h₁.entryAlloc hg.toOwner (hg.isData (show 13 < 14 by omega)))
      fun table s₂ t₂ ha' h₂ => ?_
    have hg' := entryAlloc_ok hg.toOwner (t := .top 13) (Or.inr rfl) (by omega) hg.ptr_eq hg.ne ha'
    exact h₂.entryAlloc hg'.toOwner (hg'.isData ⟨Or.inr rfl, by omega⟩)

end Map

/-! ## The loop of `writei` -/

/-- One turn of the loop of `writei`: `m` bytes are stored in the block of position
`off`. -/
def chunk (ip : Fin NINODE) (src : Buf) (off m : Nat) : Kern Unit := do
  let I ← inodeAt ip
  let block ← bmapAlloc ip (off / BSIZE)
  let buf ← readBlock I.dev block
  writeBlock I.dev block (buf.copy (off % BSIZE) src m)

/-- The loop of `writei`: `len` bytes are stored from position `off` on. -/
def fill (ip : Fin NINODE) (src : Buf) (len off : Nat) : Kern Nat := writeiLoop ip src len len 0 off

section Loop

theorem writeiLoop_succ {tot : Nat} (h : ¬ n ≤ tot) :
    writeiLoop ip src n (k + 1) tot off = (do
      chunk ip (src.drop tot) off (min (BSIZE - off % BSIZE) (n - tot))
      writeiLoop ip src n k (tot + min (BSIZE - off % BSIZE) (n - tot))
        (off + min (BSIZE - off % BSIZE) (n - tot))) := by
  rw [writeiLoop, if_neg h]
  simp only [chunk, bind_assoc]
  rfl

theorem chunk_pos (off : Nat) {rest : Nat} (h : 0 < rest) : 0 < min (BSIZE - off % BSIZE) rest := by
  have := Nat.mod_lt off (show 0 < BSIZE by decide)
  omega

/-- The number of turns allowed does not matter if it is large enough. -/
theorem writeiLoop_fuel : ∀ {k k' tot off : Nat}, n - tot ≤ k → n - tot ≤ k' →
    writeiLoop ip src n k tot off = writeiLoop ip src n k' tot off
  | 0, 0, tot, off, _, _ => rfl
  | 0, k' + 1, tot, off, h, _ => by
      rw [writeiLoop, writeiLoop, if_pos (by omega)]
  | k + 1, 0, tot, off, _, h => by
      rw [writeiLoop, writeiLoop, if_pos (by omega)]
  | k + 1, k' + 1, tot, off, h, h' => by
      by_cases hdone : n ≤ tot
      · rw [writeiLoop, writeiLoop, if_pos hdone, if_pos hdone]
      · have hm := chunk_pos off (Nat.sub_pos_of_lt (Nat.lt_of_not_le hdone))
        have hrest : writeiLoop ip src n k (tot + min (BSIZE - off % BSIZE) (n - tot))
            (off + min (BSIZE - off % BSIZE) (n - tot)) =
            writeiLoop ip src n k' (tot + min (BSIZE - off % BSIZE) (n - tot))
              (off + min (BSIZE - off % BSIZE) (n - tot)) :=
          writeiLoop_fuel (by omega) (by omega)
        rw [writeiLoop_succ hdone, writeiLoop_succ hdone, hrest]

/-- What has been stored does not matter for the rest. -/
theorem writeiLoop_from : ∀ (src : Buf) {n k tot off : Nat},
    writeiLoop ip src n k tot off = writeiLoop ip (src.drop tot) (n - tot) k 0 off
  | src, n, 0, tot, off => rfl
  | src, n, k + 1, tot, off => by
      by_cases hdone : n ≤ tot
      · rw [writeiLoop, writeiLoop, if_pos hdone, if_pos (by omega)]
      · rw [writeiLoop_succ hdone, writeiLoop_succ (by omega), writeiLoop_from src,
          writeiLoop_from (src.drop tot), Buf.drop_drop, Buf.drop_drop, Nat.sub_zero,
          Nat.zero_add, Nat.add_zero, Nat.sub_sub]

theorem fill_pos (h : 0 < len) :
    fill ip src len off = (do
      chunk ip src off (min (BSIZE - off % BSIZE) len)
      fill ip (src.drop (min (BSIZE - off % BSIZE) len)) (len - min (BSIZE - off % BSIZE) len)
        (off + min (BSIZE - off % BSIZE) len)) := by
  have hm := chunk_pos off h
  obtain ⟨k, rfl⟩ := Nat.exists_eq_add_one_of_ne_zero h.ne'
  have hfuel : writeiLoop ip (src.drop (min (BSIZE - off % BSIZE) (k + 1)))
      (k + 1 - min (BSIZE - off % BSIZE) (k + 1)) k 0 (off + min (BSIZE - off % BSIZE) (k + 1)) =
      fill ip (src.drop (min (BSIZE - off % BSIZE) (k + 1)))
        (k + 1 - min (BSIZE - off % BSIZE) (k + 1)) (off + min (BSIZE - off % BSIZE) (k + 1)) :=
    writeiLoop_fuel (by omega) (by omega)
  rw [← hfuel]
  unfold fill
  rw [writeiLoop_succ (by omega), writeiLoop_from src, Buf.drop_zero, Nat.zero_add, Nat.sub_zero]

end Loop

section Chunks

variable {m : Nat}

/-- What a turn of the loop has done: block `b` holds position `off`, and the bytes are
stored in it. -/
structure Chunked (L : Layout) (S : Nat → Prop) (dev n : Nat) (ip : Fin NINODE) (src : Buf)
    (off m b : Nat) (s s₁ s' : KState) : Prop where
  map : bmapAlloc ip (off / 1024) s = .ok b s₁
  lt : off / 1024 < 65804
  grown : Grown L S dev n ip (·.On (Slot.ofBlock (off / 1024))) (Slot.ofBlock (off / 1024)) b s s₁
  cap : dev < 2 ∧ b < (s₁.disk dev).capacity
  eq : s' = s₁.putBlock dev b ((s₁.blk dev b).copy (off % 1024) src m)

theorem chunk_ok (ho : Owner L S dev n ip s) (hx : chunk ip src off m s = .ok u s') :
    ∃ b s₁, Chunked L S dev n ip src off m b s s₁ s' := by
  replace hx := inodeAt_then hx
  rw [ho.dev_eq, BSIZE_eq] at hx
  obtain ⟨b, s₁, hb, hx⟩ := bind_ok.mp hx
  obtain ⟨hlt, hg⟩ := bmapAlloc_ok ho hb
  have hb31 := ho.fits.data_lt (hg.isData (Slot.valid_ofBlock hlt))
  obtain ⟨buf, t, hr, hx⟩ := bind_ok.mp hx
  unfold readBlock at hr
  rw [Nat.mod_eq_of_lt (show b < 2 ^ 31 by omega)] at hr
  split_ifs at hr with hc
  cases hr
  have hs' := writeBlock_ok hx
  rw [Nat.mod_eq_of_lt (show b < 2 ^ 31 by omega)] at hs'
  exact ⟨b, s₁, hb, hlt, hg, hc, hs'⟩

theorem chunk_of_map (hd : (s.inodeTable ip).dev = dev)
    (hmap : bmapAlloc ip (off / 1024) s = .ok b s₁) (hb : b < 2 ^ 31)
    (hc : dev < 2 ∧ b < (s₁.disk dev).capacity) :
    chunk ip src off m s = .ok () (s₁.putBlock dev b ((s₁.blk dev b).copy (off % 1024) src m)) := by
  have hc' : dev < 2 ∧ b % 2 ^ 31 < (s₁.disk dev).capacity := by rwa [Nat.mod_eq_of_lt hb]
  have hread : readBlock dev b s₁ = .ok (s₁.blk dev b) s₁ := by
    unfold readBlock
    rw [if_pos hc', Nat.mod_eq_of_lt hb]
  unfold chunk
  rw [run_bind (show inodeAt ip s = .ok (s.inodeTable ip) s from rfl), hd, BSIZE_eq,
    run_bind hmap, run_bind hread]
  unfold writeBlock
  rw [if_pos hc', Nat.mod_eq_of_lt hb]

theorem Chunked.ptr_ne (h : Chunked L S dev n ip src off m b s s₁ s') :
    (s₁.vol L dev).ptr n (Slot.ofBlock (off / 1024)) ≠ 0 := by
  rw [h.grown.ptr_eq]
  exact h.grown.ne

/-- The inode still owns its blocks. -/
theorem Chunked.owner (h : Chunked L S dev n ip src off m b s s₁ s') :
    Owner L S dev n ip s' ∧ (s'.vol L dev).ptr n (Slot.ofBlock (off / 1024)) = b := by
  have hleaf := Slot.leaf_ofBlock h.lt
  have hb := h.grown.fits.data_lt (h.grown.isData hleaf.valid)
  have hw : writeBlock dev ((s₁.vol L dev).ptr n (Slot.ofBlock (off / 1024)))
      ((s₁.blk dev b).copy (off % 1024) src m) s₁ = .ok () s' := by
    rw [h.grown.ptr_eq, h.eq]
    unfold writeBlock
    rw [Nat.mod_eq_of_lt (show b < 2 ^ 31 by omega), if_pos h.cap]
  obtain ⟨hvol, ho⟩ := h.grown.toOwner.writeBlock_leaf hleaf h.ptr_ne hw
  refine ⟨ho, ?_⟩
  rw [hvol, h.grown.own.ptr_setData h.grown.mem hleaf h.ptr_ne _ h.grown.mem hleaf.valid,
    h.grown.ptr_eq]

theorem addrAlloc_mapped (ho : Owner L S dev n ip s) (hi : i < 14)
    (h0 : (s.vol L dev).ptr n (.top i) ≠ 0) :
    addrAlloc ip i s = .ok ((s.vol L dev).ptr n (.top i)) s := by
  unfold addrAlloc
  rw [run_bind (show inodeAt ip s = .ok (s.inodeTable ip) s from rfl), ho.addr hi, if_neg h0]
  rfl

theorem entryAlloc_mapped (ho : Owner L S dev n ip s) (hon : Online L dev s)
    (hσ : σ.IsTable) (h0 : (s.vol L dev).ptr n (.ent σ i) ≠ 0) :
    entryAlloc ip ((s.vol L dev).ptr n σ) i s = .ok ((s.vol L dev).ptr n (.ent σ i)) s := by
  have h0' := ptr_parent_ne h0
  obtain ⟨buf, t, hb⟩ := (ho.readBlock_returns hon hσ.valid h0').exists_ok
  obtain ⟨rfl, -, he⟩ := ho.readEntry_ok hσ h0' hb i
  unfold entryAlloc
  rw [run_bind (show inodeAt ip s = .ok (s.inodeTable ip) s from rfl), ho.dev_eq, run_bind hb,
    he, if_neg h0]
  rfl

/-- `bmap_alloc` on a block the file has changes nothing. -/
theorem bmapAlloc_mapped (ho : Owner L S dev n ip s) (hon : Online L dev s)
    (hbn : bn < 65804) (h0 : (s.vol L dev).ptr n (Slot.ofBlock bn) ≠ 0) :
    bmapAlloc ip bn s = .ok ((s.vol L dev).ptr n (Slot.ofBlock bn)) s := by
  unfold bmapAlloc
  rw [NDIRECT_eq, NINDIRECT_eq, NDINDIRECT_eq]
  unfold Slot.ofBlock at h0 ⊢
  split_ifs with h1 h2 h3 h4
  · rw [if_pos h1] at h0
    exact addrAlloc_mapped ho (by omega) h0
  · rw [if_neg h1, if_pos (by omega)] at h0
    rw [run_bind (addrAlloc_mapped ho (by omega) (ptr_parent_ne h0))]
    exact entryAlloc_mapped ho hon (Or.inl rfl) h0
  · omega
  · omega
  · rw [if_neg h1, if_neg (by omega)] at h0
    have h0' := ptr_parent_ne h0
    rw [run_bind (addrAlloc_mapped ho (by omega) (ptr_parent_ne h0')),
      show bn - 12 - 256 = bn - 268 by omega,
      run_bind (entryAlloc_mapped (σ := .top 13) ho hon (Or.inr rfl) h0')]
    exact entryAlloc_mapped ho hon ⟨rfl, by omega⟩ h0
  · omega
  · omega

theorem Chunked.online (h : Chunked L S dev n ip src off m b s s₁ s')
    (hd : (s.inodeTable ip).dev = dev) (hon : Online L dev s) : Online L dev s' := by
  refine hon.congr ?_ ?_
  · rw [h.eq]
    exact (LocalOn.bmapAlloc.of_ok hd h.map).sb
  · rw [h.eq, putBlock_capacity]
    exact (Steady.of_ok .bmapAlloc h.map).capacity dev

/-- A turn of the loop can be split within the block. -/
theorem chunk_split (ho : Owner L S dev n ip s) (hon : Online L dev s)
    (hfit : off % 1024 + m < 1024) (hx : chunk ip src off (m + k) s = .ok u s') :
    ∃ s₁ s₂, chunk ip src off m s = .ok () s₁ ∧
      chunk ip (src.drop m) (off + m) k s₁ = .ok () s₂ ∧ Alike False dev n ip s' s₂ := by
  obtain ⟨b, t, hc⟩ := chunk_ok ho hx
  have hb : b < 2 ^ 31 := by
    have := ho.fits.data_lt (hc.grown.isData (Slot.valid_ofBlock hc.lt))
    omega
  have h₁ : Chunked L S dev n ip src off m b s t
      (t.putBlock dev b ((t.blk dev b).copy (off % 1024) src m)) :=
    ⟨hc.map, hc.lt, hc.grown, hc.cap, rfl⟩
  obtain ⟨ho₁, hptr⟩ := h₁.owner
  -- The second part finds the block mapped.
  have hmap := bmapAlloc_mapped ho₁ (h₁.online ho.dev_eq hon) hc.lt
    (by rw [hptr]; exact hc.grown.ne)
  rw [hptr] at hmap
  have hdiv : (off + m) / 1024 = off / 1024 := by omega
  have hmod : (off + m) % 1024 = off % 1024 + m := by omega
  refine ⟨_, _, chunk_of_map ho.dev_eq hc.map hb hc.cap,
    chunk_of_map ho₁.dev_eq (by rw [hdiv]; exact hmap) hb ?_, ?_⟩
  · rw [putBlock_capacity]
    exact hc.cap
  · rw [hc.eq]
    refine {
      sb := rfl
      tables := rfl
      capacity := fun d => by
        rw [putBlock_capacity, putBlock_capacity, putBlock_capacity]
      blk := fun d b' i _ => ?_
      slot := fun _ => rfl
      dinode := fun _ _ _ => rfl }
    simp only [putBlock_blk_apply, hmod, and_self, if_true, Buf.copy_copy]
    split_ifs <;> rfl

theorem Alike.chunk (h : Alike D dev n ip s t) (ho : Owner L S dev n ip s) :
    Mimics (Alike D dev n ip) (chunk ip src off m) (chunk ip src off m) s t := by
  refine .after (a := s.inodeTable ip) (b := t.inodeTable ip) rfl rfl ?_
  rw [h.dev_eq, ho.dev_eq]
  refine .bind (h.bmapAlloc ho) fun b s₁ t₁ hb h₁ => ?_
  obtain ⟨hlt, hg⟩ := bmapAlloc_ok ho hb
  have hdata := hg.isData (Slot.valid_ofBlock hlt)
  refine .bind (h₁.readBlock fun hc => hg.fits.ne_iblock hg.lt hdata hc.2)
    fun buf s₂ t₂ _ h₂ => h₂.writeBlock fun _ _ => rfl

/-- The loop does the same in states that agree. -/
theorem Alike.fill : ∀ {len off : Nat} {src : Buf} {s t : KState}, Alike D dev n ip s t →
    Owner L S dev n ip s →
    Mimics (Alike D dev n ip) (fill ip src len off) (fill ip src len off) s t := by
  intro len
  induction len using Nat.strong_induction_on with
  | _ len ih =>
      intro off src s t h ho
      rcases Nat.eq_zero_or_pos len with rfl | hpos
      · exact .pure h
      · have hm := chunk_pos off hpos
        rw [fill_pos hpos]
        refine .bind (h.chunk ho) fun _ s₁ t₁ hc h₁ => ?_
        obtain ⟨b, s₀, hc⟩ := chunk_ok ho hc
        exact ih _ (by omega) h₁ hc.owner.1

theorem fill_ok (ho : Owner L S dev n ip s) (hmax : off + len ≤ maxSize)
    (hx : fill ip src len off s = .ok stop s') :
    Owner L S dev n ip s' ∧ stop = off + len ∧
      ((s'.vol L dev).ino n).size = ((s.vol L dev).ino n).size := by
  obtain ⟨ho', hstop, -, hsize⟩ := writeiLoop_ok hmax ho (Nat.zero_le len) le_rfl (.refl ho.own) hx
  exact ⟨ho', hstop, hsize⟩

/-- The loop can be split. -/
theorem fill_split : ∀ {len k off stop : Nat} {src : Buf} {s s' : KState},
    Owner L S dev n ip s → Online L dev s → off + len + k ≤ maxSize →
    fill ip src (len + k) off s = .ok stop s' →
    ∃ s₁ s₂, fill ip src len off s = .ok (off + len) s₁ ∧
      fill ip (src.drop len) k (off + len) s₁ = .ok stop s₂ ∧ Alike False dev n ip s' s₂ := by
  intro len
  induction len using Nat.strong_induction_on with
  | _ len ih =>
      intro k off stop src s s' ho hon hmax hx
      rcases Nat.eq_zero_or_pos len with rfl | hpos
      · rw [Nat.zero_add] at hx
        exact ⟨s, s', rfl, by rw [Buf.drop_zero]; exact hx, .refl _⟩
      rcases Nat.eq_zero_or_pos k with rfl | hk
      · rw [Nat.add_zero] at hx hmax
        obtain ⟨-, rfl, -⟩ := fill_ok ho hmax hx
        exact ⟨s', s', hx, rfl, .refl _⟩
      have hmod := Nat.mod_lt off (show 0 < 1024 by decide)
      rw [fill_pos (by omega), BSIZE_eq] at hx
      obtain ⟨u, t, hc, hx⟩ := bind_ok.mp hx
      obtain ⟨b, t₀, hch⟩ := chunk_ok ho hc
      by_cases hfit : off % 1024 + len < 1024
      · -- The first part ends inside the block.
        obtain ⟨j, hj⟩ := Nat.exists_eq_add_of_le
          (show len ≤ min (1024 - off % 1024) (len + k) by omega)
        rw [hj] at hc hx
        obtain ⟨s₁, s₂, h₁, h₂, ha⟩ := chunk_split ho hon hfit hc
        obtain ⟨s₃, h₃, ha'⟩ := ha.fill hch.owner.1 _ _ hx
        have hlen : min (1024 - off % 1024) len = len := by omega
        have hk' : min (1024 - (off + len) % 1024) k = j := by omega
        refine ⟨s₁, s₃, ?_, ?_, ha'⟩
        · rw [fill_pos hpos, BSIZE_eq, hlen, run_bind h₁, Nat.sub_self]
          rfl
        · rw [fill_pos hk, BSIZE_eq, hk', run_bind h₂, Buf.drop_drop, Nat.add_assoc,
            show k - j = len + k - (len + j) by omega]
          exact h₃
      · -- The first turn is the same.
        have hm : min (1024 - off % 1024) (len + k) = 1024 - off % 1024 := by omega
        have hm' : min (1024 - off % 1024) len = 1024 - off % 1024 := by omega
        rw [hm, show len + k - (1024 - off % 1024) = len - (1024 - off % 1024) + k by omega] at hx
        rw [hm] at hc
        obtain ⟨s₁, s₂, h₁, h₂, ha⟩ := ih _ (by omega) hch.owner.1 (hch.online ho.dev_eq hon)
          (by omega) hx
        rw [show off + (1024 - off % 1024) + (len - (1024 - off % 1024)) = off + len by omega]
          at h₁ h₂
        refine ⟨s₁, s₂, ?_, ?_, ha⟩
        · rw [fill_pos hpos, BSIZE_eq, hm', run_bind hc, h₁]
        · rw [Buf.drop_drop, show 1024 - off % 1024 + (len - (1024 - off % 1024)) = len by omega]
            at h₂
          exact h₂

/-- The loop reads no byte after the last it stores. -/
theorem fill_congr : ∀ {len off : Nat} {src src' : Buf}, (∀ i < len, src i = src' i) →
    fill ip src len off = fill ip src' len off := by
  intro len
  induction len using Nat.strong_induction_on with
  | _ len ih =>
      intro off src src' h
      rcases Nat.eq_zero_or_pos len with rfl | hpos
      · rfl
      · have hm := chunk_pos off hpos
        have hcopy : ∀ buf : Buf, buf.copy (off % BSIZE) src (min (BSIZE - off % BSIZE) len) =
            buf.copy (off % BSIZE) src' (min (BSIZE - off % BSIZE) len) :=
          fun buf => Buf.copy_congr fun i hi => h i (by omega)
        have hchunk : chunk ip src off (min (BSIZE - off % BSIZE) len) =
            chunk ip src' off (min (BSIZE - off % BSIZE) len) := by
          simp only [chunk, hcopy]
        have hrest : ∀ i < len - min (BSIZE - off % BSIZE) len,
            src.drop (min (BSIZE - off % BSIZE) len) i =
              src'.drop (min (BSIZE - off % BSIZE) len) i :=
          fun i hi => h _ (by omega)
        rw [fill_pos hpos, fill_pos hpos, hchunk, ih _ (by omega) hrest]

end Chunks

/-! ## `writei` -/

/-- The size is set, and the inode stored. -/
def setEnd (ip : Fin NINODE) (stop : Nat) : Kern Unit := do
  setDinode ip (·.setSize stop)
  iupdate ip

/-- The end of `writei`: the size is set if the file has grown. -/
def finish (ip : Fin NINODE) (len stop : Nat) : Kern Int := do
  let I ← inodeAt ip
  if 0 < len ∧ I.dinode.size < stop then
    setEnd ip stop
    return len
  else return len

section Writei

theorem writei_eq (hl : ilock ip s = .ok u t) (hoff : off ≤ (t.inodeTable ip).dinode.size)
    (hmax : off + len ≤ maxSize) :
    writei ip src off len s = (fill ip src len off >>= finish ip len) t := by
  simp only [maxSize] at hmax
  have hfinish : finish ip len = fun stop => do
      let I ← inodeAt ip
      if 0 < len ∧ I.dinode.size < stop then
        setDinode ip (·.setSize stop)
        iupdate ip
        return (len : Int)
      else return (len : Int) := by
    funext stop
    simp only [finish, setEnd, bind_assoc]
  unfold writei
  rw [run_bind hl, run_bind (show inodeAt ip t = .ok (t.inodeTable ip) t from rfl),
    if_neg (by omega), if_neg (by rw [MAXFILE_mul_BSIZE]; simp only [maxSize]; omega), hfinish]
  rfl

theorem finish_grows (hsize : 0 < len ∧ (s.inodeTable ip).dinode.size < stop)
    (hx : setEnd ip stop s = .ok u s') : finish ip len stop s = .ok len s' := by
  unfold finish
  rw [run_bind (show inodeAt ip s = .ok (s.inodeTable ip) s from rfl), if_pos hsize, run_bind hx]
  rfl

theorem finish_keeps (hsize : ¬ (0 < len ∧ (s.inodeTable ip).dinode.size < stop)) :
    finish ip len stop s = .ok len s := by
  unfold finish
  rw [run_bind (show inodeAt ip s = .ok (s.inodeTable ip) s from rfl), if_neg hsize]
  rfl

theorem finish_ok (hx : finish ip len stop s = .ok r s') :
    ((0 < len ∧ (s.inodeTable ip).dinode.size < stop) ∧ setEnd ip stop s = .ok () s') ∨
      ¬ (0 < len ∧ (s.inodeTable ip).dinode.size < stop) ∧ s' = s := by
  replace hx := inodeAt_then hx
  split_ifs at hx with hc
  · obtain ⟨u, t, hset, hx⟩ := bind_ok.mp hx
    obtain ⟨-, rfl⟩ := pure_ok.mp hx
    exact Or.inl ⟨hc, hset⟩
  · obtain ⟨-, rfl⟩ := pure_ok.mp hx
    exact Or.inr ⟨hc, rfl⟩

/-- After the same size has been set the states agree. -/
theorem Alike.setEnd (h : Alike D dev n ip s t) (hh : Holds dev n ip s)
    (hlt : iblock (s.sb dev) n < 2 ^ 31) :
    Mimics (Alike False dev n ip) (setEnd ip stop) (setEnd ip stop) s t := by
  intro u s' hx
  obtain ⟨v, s₁, hset, hup⟩ := bind_ok.mp hx
  obtain rfl := setDinode_ok hset
  have h₁ := h.putDinode (x := (s.inodeTable ip).dinode.setSize stop)
    (y := (t.inodeTable ip).dinode.setSize stop)
    fun i hi => Buf.put32_agree fun _ => h.dinode ip i fun hc => hi ⟨hc.1, hc.2.2⟩
  have hh₁ : Holds dev n ip (s.putInode ip
      { s.inodeTable ip with dinode := (s.inodeTable ip).dinode.setSize stop }) := by
    refine ⟨?_, ?_, ?_⟩ <;> rw [putInode_self]
    · exact hh.ref
    · exact hh.dev_eq
    · exact hh.inum_eq
  obtain ⟨t', hup', h'⟩ := h₁.iupdate (E := False) hh₁ hlt (fun i _ => by
    rw [putInode_self, putInode_self]
    exact Buf.put32_agree fun hi => h.dinode ip i (by omega)) u s' hup
  exact ⟨t', bind_ok.mpr ⟨(), _, rfl, hup'⟩, h'⟩

/-- Setting the size changes what `Alike True` leaves open. -/
theorem setEnd_alike (hh : Holds dev n ip s) (hlt : iblock (s.sb dev) n < 2 ^ 31)
    (hx : setEnd ip stop s = .ok u s') : Alike True dev n ip s s' := by
  obtain ⟨v, s₁, hset, hup⟩ := bind_ok.mp hx
  obtain rfl := setDinode_ok hset
  replace hup := inodeAt_then hup
  replace hup := superblock_then hup
  replace hup := readBlock_then hup
  obtain rfl := writeBlock_ok hup
  rw [putInode_self, putInode_sb, hh.dev_eq, hh.inum_eq, Nat.mod_eq_of_lt hlt]
  exact {
    sb := rfl
    tables := rfl
    capacity := fun d => putBlock_capacity ..
    blk := fun d b i hi => by
      rw [putBlock_blk_apply]
      split_ifs with heq
      · obtain ⟨rfl, rfl⟩ := heq
        exact Buf.copy_of_not_mem fun hc => hi ⟨trivial, rfl, rfl, hc⟩
      · rfl
    slot := fun j => by
      by_cases hj : j = ip
      · subst hj
        rw [putBlock_inodeTable, putInode_self]
      · rw [putBlock_inodeTable, putInode_of_ne hj]
    dinode := fun j i hi => by
      by_cases hj : j = ip
      · subst hj
        rw [putBlock_inodeTable, putInode_self]
        refine Buf.put32_of_not_mem ?_
        by_contra hc
        exact hi ⟨trivial, rfl, by omega, by omega⟩
      · rw [putBlock_inodeTable, putInode_of_ne hj] }

theorem setEnd_returns (ho : Owner L S dev n ip s) (hon : Online L dev s) :
    Returns (setEnd ip stop) s := by
  refine .bind (.of_ok (a := ()) rfl) fun _ t hset => ?_
  have ht := LocalOn.of_ok (LocalOn.setDinode _) ho.dev_eq hset
  obtain rfl := setDinode_ok hset
  exact iupdate_returns ho.fits (hon.congr rfl rfl) (ho.toHolds.of_touches ht) ho.lt

/-- The first of two writes ends in a state that agrees with the one after its loop, but
for the size. -/
theorem finish_alike (len stop : Nat) (ho : Owner L S dev n ip s) (hon : Online L dev s) :
    ∃ s', finish ip len stop s = .ok len s' ∧ Alike True dev n ip s s' := by
  by_cases hc : 0 < len ∧ (s.inodeTable ip).dinode.size < stop
  · have hret : Returns (setEnd ip stop) s := setEnd_returns ho hon
    obtain ⟨u, s', hx⟩ := hret.exists_ok
    exact ⟨s', finish_grows hc hx, setEnd_alike ho.toHolds (ho.fits.inode_lt ho.lt) hx⟩
  · exact ⟨s, finish_keeps hc, .refl s⟩

/-- Writing `a ++ b` leaves the state that writing `a` and then `b` leaves, but for the
calls of `write_block`. -/
theorem writei_append {a b : List Byte} (h : Sound L S dev s) (hon : Online L dev s)
    (hh : Holds dev n ip s) (hlt : n < L.ninodes) (hS : S n)
    (hx : writei ip (.ofList (a ++ b)) off (a ++ b).length s = .ok r s') (hr : 0 ≤ r) :
    ∃ s₁ s₂, writei ip (.ofList a) off a.length s = .ok a.length s₁ ∧
      writei ip (.ofList b) (off + a.length) b.length s₁ = .ok b.length s₂ ∧
      s₂ = { s' with writes := s₂.writes } := by
  obtain ⟨u, t, hl, -⟩ := bind_ok.mp hx
  have ho := Owner.of_ilock hl h hh.dev_eq hh.inum_eq hlt hS
  have hvol : t.vol L dev = s.vol L dev := ilock_vol hl
  have hon' : Online L dev t :=
    hon.congr (LocalOn.ilock.of_ok hh.dev_eq hl).sb (by rw [(ilock_disk hl).1])
  obtain ⟨hoff, hmax⟩ : off ≤ ((t.vol L dev).ino n).size ∧ off + (a ++ b).length ≤ maxSize := by
    obtain ⟨-, ⟨-, rfl, -⟩ | ⟨hc, -⟩⟩ := writei_ok h hh.dev_eq hh.inum_eq hlt hS hx
    · omega
    · rw [hvol]
      exact hc
  rw [writei_eq hl (by rw [ho.size]; exact hoff) hmax] at hx
  rw [List.length_append] at hx hmax
  obtain ⟨stop, sA, hst, hx⟩ := bind_ok.mp hx
  obtain ⟨hoA, rfl, hsizeA⟩ := fill_ok ho hmax hst
  obtain ⟨s₁, s₂, h₁, h₂, hA⟩ := fill_split ho hon' (by omega) hst
  obtain ⟨ho₁, -, hsize₁⟩ := fill_ok ho (by omega) h₁
  have hon₁ : Online L dev s₁ := hon'.congr (LocalOn.writeiLoop.of_ok ho.dev_eq h₁).sb
    ((Steady.of_ok .writeiLoop h₁).capacity dev)
  -- The first write.
  obtain ⟨s₁', hf₁, hl₁⟩ := finish_alike a.length (off + a.length) ho₁ hon₁
  have hbytes : fill ip (.ofList a) a.length off = fill ip (.ofList (a ++ b)) a.length off :=
    fill_congr fun i hi => (Buf.ofList_append_of_lt hi).symm
  have hw₁ : writei ip (.ofList a) off a.length s = .ok a.length s₁' := by
    rw [writei_eq hl (by rw [ho.size]; exact hoff) (by omega), hbytes, run_bind h₁, hf₁]
  obtain ⟨ho₁', hsize₁'⟩ : Owner L S dev n ip s₁' ∧
      ((s₁'.vol L dev).ino n).size = max ((t.vol L dev).ino n).size (off + a.length) := by
    obtain ⟨ho', ⟨-, hneg, -⟩ | ⟨-, -, -, hsize⟩⟩ := writei_ok h hh.dev_eq hh.inum_eq hlt hS hw₁
    · omega
    · exact ⟨ho', by rw [hsize, hvol]⟩
  -- The second write.
  obtain ⟨s₂', h₂', hl₂⟩ := hl₁.fill ho₁ _ _ h₂
  obtain ⟨ho₂', -, hsize₂'⟩ := fill_ok ho₁' (by omega) h₂'
  rw [Buf.drop_ofList_append] at h₂'
  have hw₂ : writei ip (.ofList b) (off + a.length) b.length s₁' =
      finish ip b.length (off + (a.length + b.length)) s₂' := by
    rw [writei_eq (ilock_of_valid ho₁'.ref ho₁'.valid) (by rw [ho₁'.size, hsize₁']; omega)
      (by omega), run_bind h₂']
  refine ⟨s₁', ?_⟩
  rw [hw₂]
  rcases finish_ok hx with ⟨⟨hpos, hgrow⟩, hset⟩ | ⟨hkeep, rfl⟩
  · rw [hoA.size, hsizeA] at hgrow
    rcases Nat.eq_zero_or_pos b.length with hb | hb
    · -- The first write has set the size.
      rw [hb, Nat.add_zero] at hset hgrow
      rw [hb] at h₂ h₂' ⊢
      obtain ⟨-, rfl⟩ := pure_ok.mp h₂
      obtain ⟨-, rfl⟩ := pure_ok.mp h₂'
      obtain ⟨s₃, hs₃, hl₃⟩ := hA.setEnd hoA.toHolds (hoA.fits.inode_lt hoA.lt) _ _ hset
      obtain ⟨-, hs₁'⟩ | ⟨hkeep, -⟩ := finish_ok hf₁
      · rw [hs₃] at hs₁'
        cases hs₁'
        exact ⟨_, hw₁, finish_keeps fun hc => absurd hc.1 (lt_irrefl 0), hl₃.eq⟩
      · rw [ho₁.size, hsize₁] at hkeep
        omega
    · -- The second write sets the size, too.
      obtain ⟨s₃, hs₃, hl₃⟩ := ((hA.mono False.elim).trans hl₂).setEnd hoA.toHolds
        (hoA.fits.inode_lt hoA.lt) _ _ hset
      refine ⟨s₃, hw₁, finish_grows ⟨hb, ?_⟩ hs₃, hl₃.eq⟩
      rw [ho₂'.size, hsize₂', hsize₁']
      omega
  · -- The size is not set at all.
    rw [hoA.size, hsizeA] at hkeep
    obtain ⟨⟨hpos, hgrow⟩, -⟩ | ⟨-, rfl⟩ := finish_ok hf₁
    · rw [ho₁.size, hsize₁] at hgrow
      omega
    · rw [Buf.drop_ofList_append, h₂'] at h₂
      cases h₂
      refine ⟨s₂, hw₁, finish_keeps fun hc => hkeep ⟨by omega, ?_⟩, hA.eq⟩
      have hgrow := hc.2
      rw [ho₂'.size, hsize₂', hsize₁] at hgrow
      exact hgrow

end Writei

/-- The root directory of an empty device is written from its end on.  The first part
ends one byte before the end of the first block. -/
theorem writei_append_blocks :
    ∃ s' s₁ s₂, writei 0 (.ofList (List.replicate 959 1 ++ [2, 3])) 64 961 rootHeld = .ok 961 s' ∧
      writei 0 (.ofList (List.replicate 959 1)) 64 959 rootHeld = .ok 959 s₁ ∧
      writei 0 (.ofList [2, 3]) 1023 2 s₁ = .ok 2 s₂ ∧ s₂ = { s' with writes := s₂.writes } := by
  have hret : (match writei 0 (.ofList (List.replicate 959 1 ++ [2, 3])) 64 961 rootHeld with
      | .ok r _ => r == 961
      | .error _ _ => false) = true := by
    decide +kernel
  cases hx : writei 0 (.ofList (List.replicate 959 1 ++ [2, 3])) 64 961 rootHeld with
  | ok r s' =>
      simp only [hx, beq_iff_eq] at hret
      subst hret
      have hlen : (List.replicate 959 (1 : Byte) ++ [2, 3]).length = 961 := by
        rw [List.length_append, List.length_replicate]
        rfl
      obtain ⟨s₁, s₂, h₁, h₂, heq⟩ := writei_append rootHeld_consistent.toSound rootHeld_online
        rootHeld_holds (by decide) ⟨by decide, by decide⟩ (by rw [hlen]; exact hx) (by decide)
      rw [List.length_replicate] at h₁ h₂
      exact ⟨s', s₁, s₂, rfl, h₁, h₂, heq⟩
  | error e s' =>
      simp only [hx] at hret
      cases hret

end Dmaos
