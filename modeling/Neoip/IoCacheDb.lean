/-
Neoip/IoCacheDb.lean

The blocks of a cache, and what the lookups in `block_db` find.

The blocks lie on a grid: two blocks of one cache with a common offset have the
same range (`Block.range_eq_of_mem`).  `Held` says that `block_db` has exactly
the blocks of the heap, each under its end; under it each lookup is described
without the order of the map:

* `blockFind` finds the block with the offset (`blockFind_eq_some`);
* `blockFullyIncludedIn` finds the blocks inside the range
  (`mem_blockFullyIncludedIn`);
* `blockDirtyContiguous` finds dirty blocks, each one where the one before it
  ends (`blockDirtyContiguous_spec`), and their bytes one after the other are
  those of each of them (`copyBlocks_of_mem`).
-/
import Mathlib.Data.List.Chain
import Mathlib.Data.List.TakeWhile
import Neoip.IoCache

namespace Neoip.IoCache

open Std (TreeMap)

variable {κ : Type} {cfg : Setup κ}

/-! ### The grid -/

section Grid

variable {size off x : ℕ} {h : off < size}

theorem mem_blockRangeFor : off ∈ blockRangeFor size off h := by
  have hmod := Nat.mod_lt off (show 0 < BLOCK_ALIGN_SIZE by decide)
  rw [FileRange.mem_def]
  show off - off % BLOCK_ALIGN_SIZE ≤ off ∧
    off ≤ min (off - off % BLOCK_ALIGN_SIZE + BLOCK_MAXLEN - 1) (size - 1)
  unfold BLOCK_ALIGN_SIZE at hmod ⊢
  unfold BLOCK_MAXLEN
  omega

/-- The range is the same for each offset in it. -/
theorem blockRangeFor_of_mem (hx : x ∈ blockRangeFor size off h) :
    ∃ hx : x < size, blockRangeFor size off h = blockRangeFor size x hx := by
  have hbeg : off - off % BLOCK_ALIGN_SIZE ≤ x := hx.1
  have hlast : x ≤ min (off - off % BLOCK_ALIGN_SIZE + BLOCK_MAXLEN - 1) (size - 1) := hx.2
  have hsize : x < size := by omega
  have heq : off - off % BLOCK_ALIGN_SIZE = x - x % BLOCK_ALIGN_SIZE := by
    unfold BLOCK_ALIGN_SIZE at hbeg hlast ⊢
    unfold BLOCK_MAXLEN at hlast
    omega
  refine ⟨hsize, ?_⟩
  rw [blockRangeFor, blockRangeFor]
  simp only [heq]

theorem dvd_blockRangeFor_beg : BLOCK_ALIGN_SIZE ∣ (blockRangeFor size off h).beg :=
  Nat.dvd_sub_mod off

theorem len_blockRangeFor_le : (blockRangeFor size off h).len ≤ BLOCK_MAXLEN := by
  have hlast : (blockRangeFor size off h).last ≤
      (blockRangeFor size off h).beg + BLOCK_MAXLEN - 1 := min_le_left ..
  rw [FileRange.len]
  unfold BLOCK_MAXLEN at *
  omega

/-- Unless the file ends there, a block ends just before the next one. -/
theorem dvd_blockRangeFor_last (hlt : (blockRangeFor size off h).last + 1 < size) :
    BLOCK_ALIGN_SIZE ∣ (blockRangeFor size off h).last + 1 := by
  have hdvd := dvd_blockRangeFor_beg (h := h)
  have hlast : (blockRangeFor size off h).last = min (off - off % BLOCK_ALIGN_SIZE + BLOCK_MAXLEN - 1)
    (size - 1) := rfl
  have hbeg : (blockRangeFor size off h).beg = off - off % BLOCK_ALIGN_SIZE := rfl
  rw [hbeg] at hdvd
  rw [hlast] at hlt ⊢
  unfold BLOCK_ALIGN_SIZE at *
  unfold BLOCK_MAXLEN at *
  omega

end Grid

namespace Block

variable {b b' : Block cfg} {x : ℕ}

theorem range_eq (b : Block cfg) (hx : x ∈ b.range) :
    ∃ h, b.range = blockRangeFor (cfg.totfile_size b.io_cache) x h := by
  obtain ⟨off, h, hrange⟩ := b.aligned
  rw [hrange] at hx ⊢
  exact blockRangeFor_of_mem hx

theorem range_eq_of_mem (hc : b.io_cache = b'.io_cache) (hx : x ∈ b.range) (hx' : x ∈ b'.range) :
    b.range = b'.range := by
  obtain ⟨h, hb⟩ := b.range_eq hx
  obtain ⟨h', hb'⟩ := b'.range_eq hx'
  rw [hb, hb']
  simp only [hc]

theorem last_mem (b : Block cfg) : b.range.last ∈ b.range := ⟨b.range.le, le_refl _⟩

/-- A block with an offset which is in the grid cell of another one is that cell. -/
theorem range_eq_blockRange {o : Op cfg} (hc : b.io_cache = o.io_cache)
    (hx : o.chunkBeg ∈ b.range) : b.range = o.blockRange := by
  obtain ⟨h, hb⟩ := b.range_eq hx
  rw [hb, Op.blockRange]
  simp only [hc]

end Block

theorem Op.chunkBeg_mem_blockRange (o : Op cfg) : o.chunkBeg ∈ o.blockRange := mem_blockRangeFor

namespace Pool

variable {s : Pool cfg} {c : κ} {off p : ℕ} {b : Block cfg}

/-! ### `block_db` has the blocks of the heap -/

/-- Each cache has exactly its blocks of the heap, each under its end. -/
def Held (s : Pool cfg) : Prop :=
  ∀ c e p, (s.block_db c)[e]? = some p ↔
    ∃ b, s.heap p = some b ∧ b.io_cache = c ∧ b.range.last = e

namespace Held

variable {q : ℕ} {b' : Block cfg} {x : ℕ}

/-- Two blocks of a cache with a common offset are one block. -/
theorem eq_of_mem (h : s.Held) (hp : s.heap p = some b) (hq : s.heap q = some b')
    (hc : b.io_cache = b'.io_cache) (hx : x ∈ b.range) (hx' : x ∈ b'.range) : p = q := by
  have hrange := Block.range_eq_of_mem hc hx hx'
  have hp' := (h b.io_cache b.range.last p).2 ⟨b, hp, rfl, rfl⟩
  have hq' := (h b.io_cache b.range.last q).2 ⟨b', hq, hc.symm, by rw [hrange]⟩
  rw [hp'] at hq'
  exact Option.some.inj hq'

theorem mem_toList (h : s.Held) {e : ℕ × ℕ} : e ∈ (s.block_db c).toList ↔
    ∃ b, s.heap e.2 = some b ∧ b.io_cache = c ∧ b.range.last = e.1 := by
  rw [← h c e.1 e.2]
  exact TreeMap.mem_toList_iff_getElem?_eq_some

end Held

/-- The blocks of a cache come in the order of their ends. -/
theorem pairwise_toList : (s.block_db c).toList.Pairwise fun e e' => e.1 < e'.1 :=
  (TreeMap.ordered_keys_toList (t := s.block_db c)).imp fun h => Nat.compare_eq_lt.1 h

/-- The entries from `lower_bound(off)` on. -/
def entriesFrom (s : Pool cfg) (c : κ) (off : ℕ) : List (ℕ × ℕ) :=
  (s.block_db c).toList.dropWhile fun e => e.1 < off

theorem entriesFrom_sublist : (s.entriesFrom c off).Sublist (s.block_db c).toList :=
  List.dropWhile_sublist _

theorem pairwise_entriesFrom : (s.entriesFrom c off).Pairwise fun e e' => e.1 < e'.1 :=
  pairwise_toList.sublist entriesFrom_sublist

theorem mem_dropWhile_lt {es : List (ℕ × ℕ)} {e : ℕ × ℕ}
    (hes : es.Pairwise fun e e' => e.1 < e'.1) :
    e ∈ es.dropWhile (fun e => e.1 < off) ↔ e ∈ es ∧ off ≤ e.1 := by
  induction es with
  | nil => simp
  | cons a es ih =>
    obtain ⟨ha, hes⟩ := List.pairwise_cons.1 hes
    rw [List.dropWhile_cons, List.mem_cons]
    split_ifs with hlt
    · rw [ih hes]
      refine ⟨fun h => ⟨.inr h.1, h.2⟩, ?_⟩
      rintro ⟨rfl | hmem, hle⟩
      · exact absurd hle (Nat.not_le.2 (of_decide_eq_true hlt))
      · exact ⟨hmem, hle⟩
    · -- the whole list is kept, and it is above its first entry
      have hle : off ≤ a.1 := Nat.not_lt.1 fun h => hlt (decide_eq_true h)
      rw [List.mem_cons]
      refine ⟨fun h => ⟨h, ?_⟩, fun h => h.1⟩
      rcases h with rfl | hmem
      · exact hle
      · exact hle.trans (ha e hmem).le

theorem lt_of_mem_takeWhile {es : List (ℕ × ℕ)} {e : ℕ × ℕ}
    (he : e ∈ es.takeWhile fun e => e.1 < off) : e.1 < off := by
  have hdec := List.mem_takeWhile_imp he
  exact of_decide_eq_true hdec

namespace Held

variable {e : ℕ × ℕ}

theorem mem_entriesFrom (h : s.Held) : e ∈ s.entriesFrom c off ↔
    (∃ b, s.heap e.2 = some b ∧ b.io_cache = c ∧ b.range.last = e.1) ∧ off ≤ e.1 := by
  rw [entriesFrom, mem_dropWhile_lt pairwise_toList, h.mem_toList]

/-! ### Lookups -/

theorem blockFind_eq_some (h : s.Held) : s.blockFind c off = some p ↔
    ∃ b, s.heap p = some b ∧ b.io_cache = c ∧ off ∈ b.range := by
  have hlower : s.lowerBound c off = (s.entriesFrom c off).map Prod.snd := rfl
  have hsorted := @pairwise_entriesFrom _ _ s c off
  have hmem := fun e => @mem_entriesFrom _ _ s c off e h
  unfold blockFind
  rw [hlower]
  cases hes : s.entriesFrom c off with
  | nil =>
    -- a block with the offset would be among the entries
    refine ⟨fun hnone => by simp at hnone, ?_⟩
    rintro ⟨b, hp, hc, hoff⟩
    have hin := (hmem (b.range.last, p)).2 ⟨⟨b, hp, hc, rfl⟩, hoff.2⟩
    rw [hes] at hin
    cases hin
  | cons e es =>
    rw [hes] at hmem hsorted
    obtain ⟨⟨b, hb, hbc, hbe⟩, hle⟩ := (hmem e).1 (List.mem_cons_self ..)
    simp only [List.map_cons, hb]
    constructor
    · intro hsome
      split_ifs at hsome with hoff
      obtain rfl := Option.some.inj hsome
      exact ⟨b, hb, hbc, hoff⟩
    · rintro ⟨b', hp, hc, hoff⟩
      -- the first entry ends in the block with the offset, which is on the grid
      have hfirst : b.range.last ≤ b'.range.last := by
        have hin := (hmem (b'.range.last, p)).2 ⟨⟨b', hp, hc, rfl⟩, hoff.2⟩
        rcases List.mem_cons.1 hin with heq | htail
        · rw [hbe, ← heq]
        · rw [hbe]
          exact ((List.pairwise_cons.1 hsorted).1 _ htail).le
      have hin : b.range.last ∈ b'.range := ⟨hoff.1.trans (hle.trans hbe.ge), hfirst⟩
      obtain rfl := h.eq_of_mem hb hp (hbc.trans hc.symm) b.last_mem hin
      rw [hb] at hp
      obtain rfl := Option.some.inj hp
      rw [if_pos hoff]

theorem mem_blockFullyIncludedIn (h : s.Held) {range : FileRange} :
    p ∈ s.blockFullyIncludedIn c range ↔
      ∃ b, s.heap p = some b ∧ b.io_cache = c ∧ range.fullyInclude b.range = true := by
  have hlower : s.lowerBound c range.beg = (s.entriesFrom c range.beg).map Prod.snd := rfl
  have hsorted := @pairwise_entriesFrom _ _ s c range.beg
  have hmem := fun e => @mem_entriesFrom _ _ s c range.beg e h
  -- the loop, from any entry on: those of its blocks which are inside
  have hgo : ∀ es : List (ℕ × ℕ), es.Pairwise (fun e e' => e.1 < e'.1) →
      (∀ e ∈ es, ∃ b, s.heap e.2 = some b ∧ b.io_cache = c ∧ b.range.last = e.1) →
      (p ∈ blockFullyIncludedIn.go s range (es.map Prod.snd) ↔
        ∃ e ∈ es, e.2 = p ∧ ∃ b, s.heap p = some b ∧ range.fullyInclude b.range = true) := by
    intro es
    induction es with
    | nil => simp [blockFullyIncludedIn.go]
    | cons e es ih =>
      intro hes hall
      obtain ⟨hfirst, hes⟩ := List.pairwise_cons.1 hes
      obtain ⟨b, hb, hbc, hbe⟩ := hall e (List.mem_cons_self ..)
      have ih := ih hes fun e he => hall e (List.mem_cons_of_mem _ he)
      have hself : p ∈ (if range.fullyInclude b.range then [e.2] else []) ↔
          e.2 = p ∧ ∃ b, s.heap p = some b ∧ range.fullyInclude b.range = true := by
        split_ifs with hin
        · rw [List.mem_singleton]
          exact ⟨fun heq => ⟨heq.symm, b, heq ▸ hb, hin⟩, fun hand => hand.1.symm⟩
        · refine ⟨fun hnil => absurd hnil List.not_mem_nil, ?_⟩
          rintro ⟨rfl, b', hb', hin'⟩
          rw [hb] at hb'
          exact absurd (Option.some.inj hb' ▸ hin') hin
      simp only [List.map_cons, blockFullyIncludedIn.go, hb, List.exists_mem_cons_iff]
      by_cases hafter : b.range.fullyAfter range = true
      · rw [if_pos hafter, hself, or_iff_left]
        -- the loop ends here: the blocks behind this one are after the range as well
        rintro ⟨e', he', rfl, b', hb', hin'⟩
        obtain ⟨b'', hb'', -, hbe''⟩ := hall e' (List.mem_cons_of_mem _ he')
        rw [hb'] at hb''
        obtain rfl := Option.some.inj hb''
        have hlt := hfirst e' he'
        have hle := b.range.le
        have hbeg : range.last < b.range.beg := of_decide_eq_true hafter
        rw [FileRange.fullyInclude_bounds] at hin'
        omega
      · rw [if_neg hafter, List.mem_append, hself, ih]
  unfold blockFullyIncludedIn
  rw [hlower, hgo _ hsorted fun e he => ((hmem e).1 he).1]
  constructor
  · rintro ⟨e, he, rfl, b, hb, hin⟩
    obtain ⟨⟨b', hb', hc, -⟩, -⟩ := (hmem e).1 he
    rw [hb] at hb'
    obtain rfl := Option.some.inj hb'
    exact ⟨b, hb, hc, hin⟩
  · rintro ⟨b, hb, hc, hin⟩
    refine ⟨(b.range.last, p), (hmem _).2 ⟨⟨b, hb, hc, rfl⟩, ?_⟩, rfl, b, hb, hin⟩
    exact (FileRange.fullyInclude_bounds.1 hin).1.trans b.range.le

end Held

/-! ### The dirty blocks to write at once -/

/-- Each block begins where the one before it ends. -/
def Adjacent (b b' : Block cfg) : Prop := b.range.last + 1 = b'.range.beg

def IsDirty (s : Pool cfg) (c : κ) (p : ℕ) : Prop :=
  ∃ b, s.heap p = some b ∧ b.io_cache = c ∧ b.state = .DIRTY

/-- One direction of the search, in the order `lt` of the ends of the blocks. -/
theorem contiguousRun_spec {lt : ℕ → ℕ → Prop} {es : List (ℕ × ℕ)}
    (hes : es.Pairwise fun e e' => lt e.1 e'.1)
    (hall : ∀ e ∈ es, ∃ b, s.heap e.2 = some b ∧ b.io_cache = c ∧ b.range.last = e.1)
    (hprev : ∀ e ∈ es, lt b.range.last e.1) :
    (∀ p ∈ s.contiguousRun b.range (es.map Prod.snd), s.IsDirty c p) ∧
      (b :: (s.contiguousRun b.range (es.map Prod.snd)).filterMap s.heap).IsChain fun x y =>
        y.range.isContiguous x.range = true ∧ lt x.range.last y.range.last := by
  induction es generalizing b with
  | nil =>
    rw [List.map_nil, contiguousRun]
    exact ⟨fun p hp => absurd hp List.not_mem_nil, List.isChain_singleton _⟩
  | cons e es ih =>
    obtain ⟨hfirst, hes⟩ := List.pairwise_cons.1 hes
    obtain ⟨b', hb', hc, hend⟩ := hall e (List.mem_cons_self ..)
    have hlt : lt b.range.last b'.range.last := by
      rw [hend]
      exact hprev e (List.mem_cons_self ..)
    rw [List.map_cons, contiguousRun, hb']
    dsimp only
    split_ifs with hgo
    · obtain ⟨hcontiguous, hdirty⟩ := Bool.and_eq_true_iff.1 hgo
      obtain ⟨hrun, hchain⟩ := ih (b := b') hes
        (fun e' he' => hall e' (List.mem_cons_of_mem _ he'))
        (fun e' he' => by
          rw [hend]
          exact hfirst e' he')
      refine ⟨?_, ?_⟩
      · intro p hp
        rcases List.mem_cons.1 hp with rfl | hp
        · exact ⟨b', hb', hc, of_decide_eq_true hdirty⟩
        · exact hrun p hp
      · rw [List.filterMap_cons_some hb']
        exact List.isChain_cons_cons.2 ⟨⟨hcontiguous, hlt⟩, hchain⟩
    · exact ⟨fun p hp => absurd hp List.not_mem_nil, List.isChain_singleton _⟩

theorem Held.blockDirtyContiguous_spec (h : s.Held) :
    (∀ p ∈ s.blockDirtyContiguous c off, s.IsDirty c p) ∧
      ((s.blockDirtyContiguous c off).filterMap s.heap).IsChain Adjacent := by
  have hlower : s.lowerBound c off = (s.entriesFrom c off).map Prod.snd := rfl
  have hsorted := @pairwise_entriesFrom _ _ s c off
  have hmem := fun e => @mem_entriesFrom _ _ s c off e h
  have hempty : (∀ p ∈ ([] : List ℕ), s.IsDirty c p) ∧
      (([] : List ℕ).filterMap s.heap).IsChain Adjacent :=
    ⟨fun p hp => absurd hp List.not_mem_nil, List.isChain_nil⟩
  unfold blockDirtyContiguous
  rw [hlower]
  cases hes : s.entriesFrom c off with
  | nil => exact hempty
  | cons e es =>
    rw [hes] at hmem hsorted
    obtain ⟨hfirst, hsorted⟩ := List.pairwise_cons.1 hsorted
    obtain ⟨⟨b, hb, hc, hend⟩, hle⟩ := (hmem e).1 (List.mem_cons_self ..)
    simp only [List.map_cons, hb]
    split_ifs with hgo
    · -- forwards, from the block on, the ends grow
      obtain ⟨hrun, hchain⟩ := contiguousRun_spec (b := b) (c := c) hsorted
        (fun e' he' => ((hmem e').1 (List.mem_cons_of_mem _ he')).1)
        (fun e' he' => by
          rw [hend]
          exact hfirst e' he')
      -- backwards they shrink
      have hbefore : s.beforeBound c off =
          (((s.block_db c).toList.takeWhile fun e => e.1 < off).reverse).map Prod.snd :=
        List.map_reverse.symm
      obtain ⟨hrun', hchain'⟩ := @contiguousRun_spec _ _ s c b (· > ·)
        ((s.block_db c).toList.takeWhile fun e => e.1 < off).reverse
        (List.pairwise_reverse.2 (pairwise_toList.sublist (List.takeWhile_sublist _)))
        (fun e' he' => h.mem_toList.1 (List.takeWhile_sublist _ |>.subset (List.mem_reverse.1 he')))
        (fun e' he' => by
          have hlt := lt_of_mem_takeWhile (List.mem_reverse.1 he')
          show e'.1 < b.range.last
          omega)
      rw [← hbefore] at hrun' hchain'
      refine ⟨?_, ?_⟩
      · intro p hp
        rcases List.mem_append.1 hp with hp | hp
        · exact hrun' p (List.mem_reverse.1 hp)
        · rcases List.mem_cons.1 hp with rfl | hp
          · exact ⟨b, hb, hc, hgo.2⟩
          · exact hrun p hp
      · rw [List.filterMap_append, List.filterMap_reverse, List.filterMap_cons_some hb,
          List.isChain_split]
        constructor
        · rw [← List.reverse_cons, List.isChain_reverse]
          refine hchain'.imp fun x y hxy => ?_
          have hx := x.range.le
          have hy := y.range.le
          have hcont := FileRange.isContiguous_bounds.1 hxy.1
          have hgt : y.range.last < x.range.last := hxy.2
          show y.range.last + 1 = x.range.beg
          omega
        · refine hchain.imp fun x y hxy => ?_
          have hx := x.range.le
          have hcont := FileRange.isContiguous_bounds.1 hxy.1
          have hlt : x.range.last < y.range.last := hxy.2
          show x.range.last + 1 = y.range.beg
          omega
    · exact hempty

/-! ### The range and the bytes of a block write -/

section Write

variable {bs : List (Block cfg)} {r : FileRange} {x ptr : ℕ} {data : Bytes}

/-- The range that `bt_io_cache_blkwr_t` computes. -/
def spanOf (r : FileRange) (bs : List (Block cfg)) : FileRange :=
  bs.foldl (fun r b => r.span b.range) r

theorem spanOf_beg_last (hchain : (b :: bs).IsChain Adjacent) (hr : r.last = b.range.last) :
    (spanOf r bs).beg = r.beg ∧ r.last ≤ (spanOf r bs).last ∧
      (∀ b' ∈ bs, r.last < b'.range.beg ∧ b'.range.last ≤ (spanOf r bs).last) ∧
      ∀ x ∈ spanOf r bs, x ∈ r ∨ ∃ b' ∈ bs, x ∈ b'.range := by
  induction bs generalizing r b with
  | nil => exact ⟨rfl, le_refl _, fun b' hb' => absurd hb' List.not_mem_nil, fun x hx => .inl hx⟩
  | cons b' bs ih =>
    obtain ⟨hadj, hchain⟩ := List.isChain_cons_cons.1 hchain
    have hadj : b.range.last + 1 = b'.range.beg := hadj
    have hle := r.le
    have hle' := b'.range.le
    have hbeg : (r.span b'.range).beg = r.beg := by
      show min r.beg b'.range.beg = _
      omega
    have hlast : (r.span b'.range).last = b'.range.last := by
      show max r.last b'.range.last = _
      omega
    obtain ⟨h₁, h₂, h₃, h₄⟩ := ih hchain hlast
    rw [hlast] at h₂ h₃
    refine ⟨h₁.trans hbeg, by show r.last ≤ (spanOf (r.span b'.range) bs).last; omega, ?_, ?_⟩
    · intro b'' hb''
      rcases List.mem_cons.1 hb'' with rfl | htail
      · exact ⟨by omega, h₂⟩
      · obtain ⟨hlo, hhi⟩ := h₃ b'' htail
        exact ⟨by omega, hhi⟩
    · intro x hx
      rcases h₄ x hx with hspan | ⟨b'', hb'', hx'⟩
      · obtain ⟨hlo, hhi⟩ := FileRange.mem_def.1 hspan
        rw [hbeg] at hlo
        rw [hlast] at hhi
        by_cases hxr : x ≤ r.last
        · exact .inl ⟨hlo, hxr⟩
        · exact .inr ⟨b', List.mem_cons_self .., by omega, hhi⟩
      · exact .inr ⟨b'', List.mem_cons_of_mem _ hb'', hx'⟩

theorem copyBlocks_of_lt (hx : x < ptr) : copyBlocks data ptr bs x = data x := by
  induction bs generalizing data ptr with
  | nil => rfl
  | cons b bs ih =>
    rw [copyBlocks, ih (by omega), memcpy, if_neg (by omega)]

/-- Adjacent blocks, copied from where the first one begins, give the bytes of each. -/
theorem copyBlocks_of_mem (hchain : bs.IsChain Adjacent)
    (hptr : ∀ b ∈ bs.head?, b.range.beg = ptr) (hb : b ∈ bs) (hx : x ∈ b.range) :
    copyBlocks data ptr bs x = b.datum x := by
  induction bs generalizing data ptr with
  | nil => cases hb
  | cons b₀ bs ih =>
    have hbeg := hptr b₀ rfl
    have hle := b₀.range.le
    have hlen : ptr + b₀.range.len = b₀.range.last + 1 := by
      rw [FileRange.len]
      omega
    rw [copyBlocks]
    rcases List.mem_cons.1 hb with rfl | htail
    · obtain ⟨hlo, hhi⟩ := FileRange.mem_def.1 hx
      rw [copyBlocks_of_lt (by omega), memcpy, if_pos ⟨by omega, by omega⟩, hbeg]
      congr 1
      omega
    · refine ih hchain.tail ?_ htail
      intro b₁ hb₁
      cases bs with
      | nil => cases hb₁
      | cons b₂ bs =>
        obtain rfl := Option.some.inj hb₁
        have hadj : b₀.range.last + 1 = b₂.range.beg := (List.isChain_cons_cons.1 hchain).1
        omega

end Write

/-- What a block write writes: dirty blocks, all of their bytes, and nothing else. -/
theorem Held.startBlkwr_cases (h : s.Held) (c : κ) (off : ℕ) :
    s.startBlkwr c off = s ∨
      ∃ range data, s.blkwrRange c off = some range ∧
        s.startBlkwr c off =
          { s with
            next := s.next + 1
            heap := fun p =>
              if p ∈ s.blockDirtyContiguous c off then (s.heap p).map Block.notifyCleaning
              else s.heap p
            subio_db := s.subio_db.push s.next ⟨c, range, data, true, false⟩ } ∧
        (∀ p ∈ s.blockDirtyContiguous c off, ∃ b, s.heap p = some b ∧ b.io_cache = c ∧
          b.state = .DIRTY ∧ range.fullyInclude b.range = true ∧
          ∀ x ∈ b.range, data x = b.datum x) ∧
        ∀ x ∈ range, ∃ p ∈ s.blockDirtyContiguous c off, ∃ b, s.heap p = some b ∧ x ∈ b.range := by
  obtain ⟨hdirty, hchain⟩ := h.blockDirtyContiguous_spec (c := c)
  unfold startBlkwr
  cases hrange : s.blkwrRange c off with
  | none => exact .inl rfl
  | some range =>
    unfold blkwrRange at hrange
    cases hbs : (s.blockDirtyContiguous c off).filterMap s.heap with
    | nil =>
      rw [hbs] at hrange
      cases hrange
    | cons b bs =>
      rw [hbs] at hrange hchain
      obtain rfl : spanOf b.range bs = range := Option.some.inj hrange
      obtain ⟨hbeg, hlast, hin, hout⟩ := spanOf_beg_last hchain rfl
      refine .inr ⟨_, _, rfl, rfl, fun p hp => ?_, fun x hx => ?_⟩
      · obtain ⟨b', hb', hc, hd⟩ := hdirty p hp
        have hmem : b' ∈ b :: bs := by
          rw [← hbs]
          exact List.mem_filterMap.2 ⟨p, hp, hb'⟩
        refine ⟨b', hb', hc, hd, FileRange.fullyInclude_bounds.2 ?_, fun x hx => ?_⟩
        · rw [hbeg]
          rcases List.mem_cons.1 hmem with rfl | htail
          · exact ⟨le_refl _, hlast⟩
          · have hle := b.range.le
            obtain ⟨hlo, hhi⟩ := hin b' htail
            exact ⟨by omega, hhi⟩
        · refine copyBlocks_of_mem hchain (fun b₀ hb₀ => ?_) hmem hx
          obtain rfl := Option.some.inj hb₀
          exact hbeg.symm
      · have hmem : ∃ b' ∈ b :: bs, x ∈ b'.range := by
          rcases hout x hx with hx | ⟨b', hb', hx⟩
          · exact ⟨b, List.mem_cons_self .., hx⟩
          · exact ⟨b', List.mem_cons_of_mem _ hb', hx⟩
        obtain ⟨b', hb', hx⟩ := hmem
        rw [← hbs] at hb'
        obtain ⟨p, hp, hheap⟩ := List.mem_filterMap.1 hb'
        exact ⟨p, hp, b', hheap, hx⟩

end Pool

end Neoip.IoCache
