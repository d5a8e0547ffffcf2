/-
Neoip/IoCacheScan.lean

The two scans of the io cache: `block_dirty_contiguous` over the blocks of one
cache, and `shrink_if_needed` over the LRU list of the pool.

The first only needs that each entry of `block_db` is a block of the cache, under
its end (`Filed`), the second that the LRU list has the blocks and that the length
of the pool is theirs (`Counted`).  Both are parts of `Accounted`.

Two blocks of a cache with a common offset have the same end, so a block has at
most one dirty block next to it on each side, and the run which the scan finds
cannot be continued: it is the maximal one.

Main results: `Filed.maximalRun`, `Counted.shrinks`.
-/
import Neoip.Chains
import Neoip.IoCachePool

namespace Neoip.IoCache

open Std (TreeMap)

variable {κ : Type} {cfg : Setup κ}

namespace Pool

/-! ### Dirty blocks of a cache -/

/-- Each entry of `block_db` is a block of the cache, under its end. -/
def Filed (s : Pool cfg) : Prop :=
  ∀ c e p, (s.block_db c)[e]? = some p →
    ∃ b, s.heap p = some b ∧ b.io_cache = c ∧ b.range.last = e

theorem Accounted.filed {s : Pool cfg} (h : s.Accounted) : s.Filed :=
  fun c e p hp => (h.held c e p).1 hp

/-- A dirty block of the cache. -/
structure DirtyIn (s : Pool cfg) (c : κ) (p : ℕ) (b : Block cfg) : Prop where
  heap : s.heap p = some b
  entry : (s.block_db c)[b.range.last]? = some p
  dirty : b.state = .DIRTY

/-- The dirty block `q` begins where the dirty block `p` ends. -/
def Follows (s : Pool cfg) (c : κ) (p q : ℕ) : Prop :=
  ∃ b b', s.DirtyIn c p b ∧ s.DirtyIn c q b' ∧ Adjacent b b'

/-- The maximal run of contiguous dirty blocks with the block `p`, in the order of their
offsets: every other run with it is a part of this one. -/
structure MaximalRun (s : Pool cfg) (c : κ) (p : ℕ) (result_db : List ℕ) : Prop where
  dirty : ∀ q ∈ result_db, ∃ b, s.DirtyIn c q b
  contiguous : result_db.IsChain (s.Follows c)
  mem : p ∈ result_db
  maximal : ∀ l : List ℕ, (∀ q ∈ l, ∃ b, s.DirtyIn c q b) → l.IsChain (s.Follows c) → p ∈ l →
    l <:+: result_db

variable {s : Pool cfg} {c : κ} {p q off : ℕ} {b b' : Block cfg}

namespace Filed

theorem io_cache (h : s.Filed) (hp : s.heap p = some b)
    (hentry : (s.block_db c)[b.range.last]? = some p) : b.io_cache = c := by
  obtain ⟨b', hb', hc, -⟩ := h c _ p hentry
  rw [hp] at hb'
  rw [Option.some.inj hb']
  exact hc

/-- Two blocks of `block_db` with a common offset are one block. -/
theorem eq_of_mem (h : s.Filed) {x : ℕ} (hp : s.heap p = some b)
    (hpe : (s.block_db c)[b.range.last]? = some p) (hq : s.heap q = some b')
    (hqe : (s.block_db c)[b'.range.last]? = some q) (hx : x ∈ b.range) (hx' : x ∈ b'.range) :
    p = q := by
  have hrange := Block.range_eq_of_mem
    ((h.io_cache hp hpe).trans (h.io_cache hq hqe).symm) hx hx'
  rw [hrange, hqe] at hpe
  exact (Option.some.inj hpe).symm

theorem mem_toList (h : s.Filed) {e : ℕ × ℕ} (he : e ∈ (s.block_db c).toList) :
    ∃ b, s.heap e.2 = some b ∧ b.range.last = e.1 ∧ (s.block_db c)[b.range.last]? = some e.2 := by
  have hget : (s.block_db c)[e.1]? = some e.2 := TreeMap.mem_toList_iff_getElem?_eq_some.1 he
  obtain ⟨b, hb, -, hlast⟩ := h c _ _ hget
  exact ⟨b, hb, hlast, hlast ▸ hget⟩

theorem follows_right (h : s.Filed) (q : ℕ) (p p' : ℕ) (hp : s.Follows c q p)
    (hp' : s.Follows c q p') : p = p' := by
  obtain ⟨b, b₁, hb, hb₁, hadj⟩ := hp
  obtain ⟨b', b₂, hb', hb₂, hadj'⟩ := hp'
  obtain rfl := Option.some.inj (hb.heap.symm.trans hb'.heap)
  -- both begin after the same end
  have hbeg : b₁.range.beg = b₂.range.beg := hadj.symm.trans hadj'
  refine h.eq_of_mem hb₁.heap hb₁.entry hb₂.heap hb₂.entry (x := b₁.range.beg)
    ⟨le_refl _, b₁.range.le⟩ ?_
  rw [hbeg]
  exact ⟨le_refl _, b₂.range.le⟩

end Filed

theorem follows_left (q : ℕ) (p p' : ℕ) (hp : s.Follows c p q)
    (hp' : s.Follows c p' q) : p = p' := by
  obtain ⟨b₁, b, hb₁, hb, hadj⟩ := hp
  obtain ⟨b₂, b', hb₂, hb', hadj'⟩ := hp'
  obtain rfl := Option.some.inj (hb.heap.symm.trans hb'.heap)
  have hlast : b₁.range.last = b₂.range.last := Nat.succ.inj (hadj.trans hadj'.symm)
  have hentry := hb₁.entry
  rw [hlast, hb₂.entry] at hentry
  exact (Option.some.inj hentry).symm

/-! ### One direction of the scan -/

/-- The dirty block `q` is contiguous to the dirty block `p`, and its end is further in the
direction `lt` of the scan. -/
def Next (s : Pool cfg) (c : κ) (lt : ℕ → ℕ → Prop) (p q : ℕ) : Prop :=
  ∃ b b', s.DirtyIn c p b ∧ s.DirtyIn c q b' ∧ b'.range.isContiguous b.range = true ∧
    lt b.range.last b'.range.last

theorem next_lt_iff : s.Next c (· < ·) p q ↔ s.Follows c p q := by
  refine exists_congr fun b => exists_congr fun b' =>
    and_congr_right fun _ => and_congr_right fun _ => ?_
  have hle := b.range.le
  have hle' := b'.range.le
  rw [FileRange.isContiguous_bounds, Adjacent]
  omega

theorem next_gt_iff : s.Next c (· > ·) p q ↔ s.Follows c q p := by
  rw [Next, Follows, exists_comm]
  refine exists_congr fun b => exists_congr fun b' => ?_
  have hle := b.range.le
  have hle' := b'.range.le
  rw [FileRange.isContiguous_bounds, Adjacent, and_left_comm]
  refine and_congr_right fun _ => and_congr_right fun _ => ?_
  omega

/-- Nothing ends between two contiguous blocks but one of them. -/
theorem Filed.not_between (h : s.Filed) {x : ℕ × ℕ} (hp : s.DirtyIn c p b) (hq : s.DirtyIn c q b')
    (hcont : b'.range.isContiguous b.range = true) (hx : x ∈ (s.block_db c).toList)
    (hbetween : b.range.last < x.1 ∧ x.1 < b'.range.last ∨
      b'.range.last < x.1 ∧ x.1 < b.range.last) : False := by
  obtain ⟨bx, hbx, hlast, hentry⟩ := h.mem_toList hx
  have hle := b.range.le
  have hle' := b'.range.le
  rw [FileRange.isContiguous_bounds] at hcont
  have hend := bx.last_mem
  rw [hlast] at hend
  by_cases hin : x.1 ∈ b.range
  · have heq := h.eq_of_mem hbx hentry hp.heap hp.entry hend hin
    rw [heq, hp.heap] at hbx
    obtain rfl := Option.some.inj hbx
    omega
  · have hin' : x.1 ∈ b'.range := by
      rw [FileRange.mem_def] at hin ⊢
      omega
    have heq := h.eq_of_mem hbx hentry hq.heap hq.entry hend hin'
    rw [heq, hq.heap] at hbx
    obtain rfl := Option.some.inj hbx
    omega

/-- What the scan finds in one direction from a dirty block: it goes from each dirty block to the
next one, and stops where there is none. -/
structure Scan (s : Pool cfg) (c : κ) (lt : ℕ → ℕ → Prop) (p : ℕ) (l : List ℕ) : Prop where
  dirty : ∀ q ∈ l, ∃ b, s.DirtyIn c q b
  chain : (p :: l).IsChain (s.Next c lt)
  stop : ∀ y ∈ (p :: l).getLast?, ∀ z, ¬ s.Next c lt y z

/-- **One direction of the scan.** -/
theorem Filed.contiguousRun_spec (h : s.Filed) {lt : ℕ → ℕ → Prop} [IsTrans ℕ lt] [Std.Irrefl lt]
    (hlt : ∀ x y z, lt x y → lt y z → x < y ∧ y < z ∨ z < y ∧ y < x) {es : List (ℕ × ℕ)}
    (hes : es.Pairwise fun e e' => lt e.1 e'.1) (hall : ∀ e ∈ es, e ∈ (s.block_db c).toList)
    (hp : s.DirtyIn c p b) (hprev : ∀ e ∈ es, lt b.range.last e.1)
    (hcover : ∀ e ∈ (s.block_db c).toList, lt b.range.last e.1 → e ∈ es) :
    s.Scan c lt p (s.contiguousRun b.range (es.map Prod.snd)) := by
  -- what is next to the block is among the entries
  have hnext : ∀ (es : List (ℕ × ℕ)) {p b}, s.DirtyIn c p b →
      (∀ e ∈ (s.block_db c).toList, lt b.range.last e.1 → e ∈ es) → ∀ z, s.Next c lt p z →
      ∃ b', s.DirtyIn c z b' ∧ b'.range.isContiguous b.range = true ∧
        lt b.range.last b'.range.last ∧ (b'.range.last, z) ∈ es := by
    rintro es p b hp hcover z ⟨b₁, b', hp', hz, hcont, hfar⟩
    obtain rfl := Option.some.inj (hp'.heap.symm.trans hp.heap)
    exact ⟨b', hz, hcont, hfar,
      hcover _ (TreeMap.mem_toList_iff_getElem?_eq_some.2 hz.entry) hfar⟩
  induction es generalizing p b with
  | nil =>
    refine ⟨fun q hq => absurd hq List.not_mem_nil, List.isChain_singleton _, ?_⟩
    rintro y hy z hz
    obtain rfl := Option.some.inj hy
    obtain ⟨b', -, -, -, hmem⟩ := hnext [] hp hcover z hz
    cases hmem
  | cons e es ih =>
    obtain ⟨hfirst, hes⟩ := List.pairwise_cons.1 hes
    obtain ⟨b', hb', hlast, hentry⟩ := h.mem_toList (hall e List.mem_cons_self)
    have hfar : lt b.range.last b'.range.last := hlast ▸ hprev e List.mem_cons_self
    rw [List.map_cons, contiguousRun, hb']
    dsimp only
    split_ifs with hgo
    · obtain ⟨hcont, hdirty⟩ := Bool.and_eq_true_iff.1 hgo
      have he : s.DirtyIn c e.2 b' := ⟨hb', hentry, of_decide_eq_true hdirty⟩
      obtain ⟨hrun, hchain, hend⟩ := ih hes (fun e' he' => hall e' (List.mem_cons_of_mem _ he')) he
        (fun e' he' => hlast ▸ hfirst e' he') fun e' he' hlt' => by
          rcases List.mem_cons.1 (hcover e' he' (trans_of lt hfar hlt')) with rfl | hmem
          · rw [hlast] at hlt'
            exact absurd hlt' (irrefl_of lt _)
          · exact hmem
      refine ⟨?_, List.isChain_cons_cons.2 ⟨⟨b, b', hp, he, hcont, hfar⟩, hchain⟩, ?_⟩
      · intro q hq
        rcases List.mem_cons.1 hq with rfl | hq
        · exact ⟨b', he⟩
        · exact hrun q hq
      · rw [List.getLast?_cons_cons]
        exact hend
    · refine ⟨fun q hq => absurd hq List.not_mem_nil, List.isChain_singleton _, ?_⟩
      rintro y hy z hz
      obtain rfl := Option.some.inj hy
      obtain ⟨bz, hz, hcont, hfarz, hmem⟩ := hnext (e :: es) hp hcover z hz
      rcases List.mem_cons.1 hmem with rfl | hmem
      · -- it is the block which was refused
        obtain rfl := Option.some.inj (hb'.symm.trans hz.heap)
        exact hgo (Bool.and_eq_true_iff.2 ⟨hcont, decide_eq_true hz.dirty⟩)
      · refine h.not_between hp hz hcont (hall e List.mem_cons_self) ?_
        exact hlt _ _ _ (hlast ▸ hfar) (hfirst _ hmem)

/-! ### `block_dirty_contiguous` -/

/-- The first block which ends at an offset of a block or behind it is this block. -/
theorem Filed.entriesFrom_eq (h : s.Filed) (hp : s.DirtyIn c p b) (hoff : off ∈ b.range) :
    ∃ es, s.entriesFrom c off = (b.range.last, p) :: es := by
  have hsorted := @pairwise_entriesFrom _ _ s c off
  have hself : (b.range.last, p) ∈ s.entriesFrom c off :=
    (mem_dropWhile_lt pairwise_toList).2 ⟨TreeMap.mem_toList_iff_getElem?_eq_some.2 hp.entry, hoff.2⟩
  cases hes : s.entriesFrom c off with
  | nil =>
    rw [hes] at hself
    cases hself
  | cons e es =>
    have hfind : e ∈ s.entriesFrom c off := hes ▸ List.mem_cons_self
    obtain ⟨he, hle⟩ := (mem_dropWhile_lt pairwise_toList).1 hfind
    rw [hes] at hself hsorted
    rcases List.mem_cons.1 hself with rfl | hlater
    · exact ⟨es, rfl⟩
    · -- it ends in the block, before the end of the block
      obtain ⟨be, hbe, hlast, hentry⟩ := h.mem_toList he
      have hlt : e.1 < b.range.last := (List.pairwise_cons.1 hsorted).1 _ hlater
      have hin : be.range.last ∈ b.range := by
        rw [hlast]
        exact ⟨hoff.1.trans hle, hlt.le⟩
      have hsame := h.eq_of_mem hbe hentry hp.heap hp.entry be.last_mem hin
      rw [hsame, hp.heap] at hbe
      obtain rfl := Option.some.inj hbe
      omega

/-- Forwards, over the entries behind the block. -/
theorem Filed.scan_forward (h : s.Filed) (hp : s.DirtyIn c p b) (hoff : off ∈ b.range)
    {es : List (ℕ × ℕ)} (hes : s.entriesFrom c off = (b.range.last, p) :: es) :
    s.Scan c (· < ·) p (s.contiguousRun b.range (es.map Prod.snd)) := by
  have hsorted := @pairwise_entriesFrom _ _ s c off
  have hmem : ∀ e, e ∈ s.entriesFrom c off ↔ e ∈ (s.block_db c).toList ∧ off ≤ e.1 :=
    fun e => mem_dropWhile_lt pairwise_toList
  rw [hes] at hsorted hmem
  obtain ⟨hfirst, htail⟩ := List.pairwise_cons.1 hsorted
  refine h.contiguousRun_spec (fun x y z hxy hyz => .inl ⟨hxy, hyz⟩) htail
    (fun e he => ((hmem e).1 (List.mem_cons_of_mem _ he)).1) hp hfirst fun e he hlt => ?_
  rcases List.mem_cons.1 ((hmem e).2 ⟨he, hoff.2.trans hlt.le⟩) with rfl | hlater
  · exact absurd hlt (lt_irrefl _)
  · exact hlater

/-- Backwards, over the entries before the offset. -/
theorem Filed.scan_backward (h : s.Filed) (hp : s.DirtyIn c p b) (hoff : off ∈ b.range) :
    s.Scan c (· > ·) p (s.contiguousRun b.range (s.beforeBound c off)) := by
  have hbefore : s.beforeBound c off =
      (((s.block_db c).toList.takeWhile fun e => e.1 < off).reverse).map Prod.snd :=
    List.map_reverse.symm
  rw [hbefore]
  refine h.contiguousRun_spec (fun x y z hxy hyz => .inr ⟨hyz, hxy⟩)
    (List.pairwise_reverse.2 (pairwise_toList.sublist (List.takeWhile_sublist _)))
    (fun e he => (List.takeWhile_sublist _).subset (List.mem_reverse.1 he)) hp
    (fun e he => (lt_of_mem_takeWhile (List.mem_reverse.1 he)).trans_le hoff.2) fun e he hgt => ?_
  rw [List.mem_reverse]
  have hsplit := @List.takeWhile_append_dropWhile _ (fun e : ℕ × ℕ => decide (e.1 < off))
    (s.block_db c).toList
  rw [← hsplit] at he
  rcases List.mem_append.1 he with htake | hdrop
  · exact htake
  · -- it would be found from the offset on, before the block
    obtain ⟨es, hes⟩ := h.entriesFrom_eq hp hoff
    have hsorted := @pairwise_entriesFrom _ _ s c off
    change e ∈ s.entriesFrom c off at hdrop
    rw [hes] at hdrop hsorted
    have hgt : e.1 < b.range.last := hgt
    rcases List.mem_cons.1 hdrop with rfl | hlater
    · exact absurd hgt (lt_irrefl _)
    · exact absurd ((List.pairwise_cons.1 hsorted).1 _ hlater) (not_lt.2 hgt.le)

/-- The two directions make a run which cannot be continued. -/
theorem Filed.maximalRun_of_scans (h : s.Filed) (hp : s.DirtyIn c p b) {before after : List ℕ}
    (hbefore : s.Scan c (· > ·) p before) (hafter : s.Scan c (· < ·) p after) :
    s.MaximalRun c p (before.reverse ++ p :: after) := by
  have hcontiguous : (before.reverse ++ p :: after).IsChain (s.Follows c) := by
    refine List.isChain_split.2 ⟨?_, hafter.chain.imp fun _ _ => next_lt_iff.1⟩
    rw [← List.reverse_cons, List.isChain_reverse]
    exact hbefore.chain.imp fun _ _ => next_gt_iff.1
  refine ⟨?_, hcontiguous, List.mem_append_right _ List.mem_cons_self, ?_⟩
  · intro q hq
    rcases List.mem_append.1 hq with hq | hq
    · exact hbefore.dirty q (List.mem_reverse.1 hq)
    · rcases List.mem_cons.1 hq with rfl | hq
      · exact ⟨b, hp⟩
      · exact hafter.dirty q hq
  · intro l _ hl hpl
    refine infix_of_isChain h.follows_right follows_left hcontiguous hl
      (List.mem_append_right _ List.mem_cons_self) hpl ?_ ?_
    · rw [List.getLast?_append_cons]
      exact fun y hy z hz => hafter.stop y hy z (next_lt_iff.2 hz)
    · intro y hy z hz
      refine hbefore.stop y ?_ z (next_gt_iff.2 hz)
      rw [List.getLast?_cons, Option.mem_some_iff]
      rw [List.head?_append, List.head?_reverse] at hy
      cases hlast : before.getLast? with
      | none =>
        rw [hlast] at hy
        exact Option.some.inj hy
      | some w =>
        rw [hlast] at hy
        exact Option.some.inj hy

/-- **`block_dirty_contiguous`** finds the maximal run of contiguous dirty blocks with the block
of an offset. -/
theorem Filed.maximalRun (h : s.Filed) (hp : s.DirtyIn c p b) (hoff : off ∈ b.range) :
    s.MaximalRun c p (s.blockDirtyContiguous c off) := by
  have hlower : s.lowerBound c off = (s.entriesFrom c off).map Prod.snd := rfl
  have hgo : off ∈ b.range ∧ b.state = .DIRTY := ⟨hoff, hp.dirty⟩
  obtain ⟨es, hes⟩ := h.entriesFrom_eq hp hoff
  rw [blockDirtyContiguous, hlower, hes]
  simp only [List.map_cons, hp.heap]
  rw [if_pos hgo]
  exact h.maximalRun_of_scans hp (h.scan_backward hp hoff) (h.scan_forward hp hoff hes)

/-! ### `shrink_if_needed` -/

/-- What the loop has done when it is left: it has deleted clean blocks from the end of the LRU
list, and what remains fits, or the last block is not clean. -/
structure Shrunk (s : Pool cfg) (k : Ret κ) (s' : Pool cfg) : Prop where
  ctl : s'.ctl = .ret k
  counted : s'.Counted
  deleted : ∃ deleted, s.block_lru = s'.block_lru ++ deleted ∧
    ∀ p ∈ deleted, ∃ b, s.heap p = some b ∧ b.state = .CLEAN
  kept : ∀ p b, s.heap p = some b → b.state ≠ .CLEAN → ∃ b', s'.heap p = some b'
  fits : s'.pool_curlen ≤ cfg.pool_maxlen ∨
    ∃ p b, s'.block_lru.getLast? = some p ∧ s'.heap p = some b ∧ b.state ≠ .CLEAN

variable [DecidableEq κ] {k : Ret κ}

omit [DecidableEq κ] in
/-- The loop is left without a change to the blocks but for their states. -/
theorem Counted.shrunk_of_place (h : s.Counted) {s' : Pool cfg} (hctl : s'.ctl = .ret k)
    (hplace : ∀ p, (s'.heap p).map Block.place = (s.heap p).map Block.place)
    (hlru : s'.block_lru = s.block_lru) (hlen : s'.pool_curlen = s.pool_curlen)
    (hnext : s.next ≤ s'.next)
    (hfits : s'.pool_curlen ≤ cfg.pool_maxlen ∨
      ∃ p b, s'.block_lru.getLast? = some p ∧ s'.heap p = some b ∧ b.state ≠ .CLEAN) :
    Shrunk s k s' where
  ctl := hctl
  counted := h.congr hplace (List.Perm.of_eq hlru) hlen hnext
  deleted := ⟨[], by rw [hlru, List.append_nil], fun p hp => absurd hp List.not_mem_nil⟩
  kept p b hp _ := by
    obtain ⟨b', hb', -⟩ := Accounted.heap_of_place (fun q => (hplace q).symm) hp
    exact ⟨b', hb'⟩
  fits := hfits

/-- The destructor of a block which is there. -/
theorem blockDtor_eq (hp : s.heap p = some b) : s.blockDtor p =
    { s with
      heap := Function.update s.heap p none
      block_db := Function.update s.block_db b.io_cache
        ((s.block_db b.io_cache).erase b.range.last)
      block_lru := s.block_lru.erase p
      pool_curlen := s.pool_curlen - b.range.len } := by
  rw [blockDtor, hp]

/-- A clean block at the end of the list is deleted, and the loop goes on. -/
theorem Shrunk.of_blockDtor (h : s.Counted) {front : List ℕ} (hlru : s.block_lru = front ++ [p])
    (hp : s.heap p = some b) (hstate : b.state = .CLEAN) (hfront : (s.blockDtor p).block_lru = front)
    {s' : Pool cfg} (hs' : Shrunk (s.blockDtor p) k s') : Shrunk s k s' := by
  have hnodup := h.nodup
  rw [hlru, List.nodup_append] at hnodup
  have hheap : ∀ q ≠ p, (s.blockDtor p).heap q = s.heap q := by
    intro q hq
    rw [blockDtor_eq hp]
    exact Function.update_of_ne hq _ _
  obtain ⟨deleted, hdeleted, hclean⟩ := hs'.deleted
  rw [hfront] at hdeleted
  refine ⟨hs'.ctl, hs'.counted, ⟨deleted ++ [p], ?_, ?_⟩, ?_, hs'.fits⟩
  · rw [hlru, hdeleted, List.append_assoc]
  · intro q hq
    rcases List.mem_append.1 hq with hq | hq
    · obtain ⟨b', hb', hclean⟩ := hclean q hq
      have hin : q ∈ front := hdeleted ▸ List.mem_append_right _ hq
      rw [hheap q (hnodup.2.2 q hin p (List.mem_singleton_self p))] at hb'
      exact ⟨b', hb', hclean⟩
    · rw [List.mem_singleton.1 hq]
      exact ⟨b, hp, hstate⟩
  · intro q b' hq hdirty
    have hne : q ≠ p := by
      rintro rfl
      rw [hp] at hq
      exact hdirty (Option.some.inj hq ▸ hstate)
    exact hs'.kept q b' ((hheap q hne).trans hq) hdirty

omit [DecidableEq κ] in
/-- A dirty block at the end of the list is written: it is not clean before this is done. -/
theorem Counted.shrunk_startBlkwr (h : s.Counted) (hlast : s.block_lru.getLast? = some p)
    (hp : s.heap p = some b) (hstate : b.state = .DIRTY) (ctl : Ctl κ) :
    Shrunk s k { startBlkwr { s with ctl := ctl } c off with ctl := .ret k } := by
  unfold startBlkwr
  cases blkwrRange { s with ctl := ctl } c off with
  | none =>
    refine h.shrunk_of_place rfl (fun _ => rfl) rfl rfl (le_refl _) (.inr ⟨p, b, hlast, hp, ?_⟩)
    rw [hstate]
    nofun
  | some range =>
    have hplace := Sound.place_ite (s := s) (f := Block.notifyCleaning) (fun _ => rfl)
      (blockDirtyContiguous { s with ctl := ctl } c off)
    refine h.shrunk_of_place rfl hplace rfl rfl (Nat.le_succ _) (.inr ?_)
    by_cases hin : p ∈ blockDirtyContiguous { s with ctl := ctl } c off
    · refine ⟨p, b.notifyCleaning, hlast, ?_, nofun⟩
      show (if p ∈ _ then (s.heap p).map Block.notifyCleaning else s.heap p) = _
      rw [if_pos hin, hp]
      rfl
    · refine ⟨p, b, hlast, ?_, ?_⟩
      · show (if p ∈ _ then (s.heap p).map Block.notifyCleaning else s.heap p) = _
        rw [if_neg hin, hp]
      · rw [hstate]
        nofun

/-- **A pool is shrunk** in at most as many rounds as it has blocks, and two. -/
theorem Counted.shrinks (h : s.Counted) (hctl : s.ctl = .shrinkIfNeeded k) :
    ∃ n ≤ s.block_lru.length + 2, Shrunk s k (run step s (List.replicate n .resume)) := by
  -- by induction on the blocks which are left: each turn drops one, writes one back or stops
  generalize hn : s.block_lru.length = len
  induction len generalizing s with
  | zero =>
    have hnil : s.block_lru = [] := List.eq_nil_of_length_eq_zero hn
    have hcur : s.pool_curlen = 0 := by
      rw [h.curlen, hnil]
      rfl
    have hfits := hcur.trans_le (Nat.zero_le cfg.pool_maxlen)
    have hstep : s.step .resume = { s with ctl := .ret k } := by
      rw [step_resume, resume, hctl]
      dsimp only
      rw [shrinkIfNeeded, if_pos hfits]
    refine ⟨1, by omega, ?_⟩
    rw [List.replicate_one, run_cons, run_nil, hstep]
    exact h.shrunk_of_place rfl (fun _ => rfl) rfl rfl (le_refl _) (.inl hfits)
  | succ len ih =>
    obtain ⟨front, p, hlru⟩ := List.eq_nil_or_concat s.block_lru |>.resolve_left fun hnil => by
      rw [hnil] at hn
      cases hn
    rw [List.concat_eq_append] at hlru
    have hlast : s.block_lru.getLast? = some p := by
      rw [hlru, List.getLast?_concat]
    obtain ⟨b, hp⟩ := (h.mem_lru p).1 (List.mem_of_getLast? hlast)
    have hstep : s.step .resume = s.shrinkIfNeeded k := by
      rw [step_resume, resume, hctl]
    unfold shrinkIfNeeded at hstep
    by_cases hfits : s.pool_curlen ≤ cfg.pool_maxlen
    · rw [if_pos hfits] at hstep
      refine ⟨1, by omega, ?_⟩
      rw [List.replicate_one, run_cons, run_nil, hstep]
      exact h.shrunk_of_place rfl (fun _ => rfl) rfl rfl (le_refl _) (.inl hfits)
    · rw [if_neg hfits] at hstep
      simp only [hlast, hp] at hstep
      cases hstate : b.state with
      | CLEAN =>
        simp only [hstate] at hstep
        -- a clean block at the back is dropped, and the loop goes on
        have hnot : p ∉ front := by
          have hnodup := h.nodup
          rw [hlru, List.nodup_append] at hnodup
          exact fun hin => hnodup.2.2 p hin p (List.mem_singleton_self p) rfl
        have hfront : (s.blockDtor p).block_lru = front := by
          rw [blockDtor_eq hp]
          show s.block_lru.erase p = front
          rw [hlru, List.erase_append_right _ hnot, List.erase_cons_head, List.append_nil]
        have hctl' : (s.blockDtor p).ctl = .shrinkIfNeeded k := by
          rw [blockDtor_eq hp]
          exact hctl
        have hlen : (s.blockDtor p).block_lru.length = len := by
          rw [hlru, List.length_append, List.length_singleton] at hn
          rw [hfront]
          omega
        obtain ⟨n, hle, hshrunk⟩ := ih (h.blockDtor p) hctl' hlen
        refine ⟨n + 1, by omega, ?_⟩
        rw [List.replicate_succ, run_cons, hstep]
        exact Shrunk.of_blockDtor h hlru hp hstate hfront hshrunk
      | DIRTY =>
        simp only [hstate] at hstep
        -- a dirty one is written back first
        refine ⟨2, by omega, ?_⟩
        rw [List.replicate_succ, List.replicate_one, run_cons, hstep, run_cons, run_nil,
          step_resume, resume]
        exact h.shrunk_startBlkwr hlast hp hstate _
      | CLEANING =>
        simp only [hstate] at hstep
        refine ⟨1, by omega, ?_⟩
        rw [List.replicate_one, run_cons, run_nil, hstep]
        refine h.shrunk_of_place rfl (fun _ => rfl) rfl rfl (le_refl _)
          (.inr ⟨p, b, hlast, hp, ?_⟩)
        rw [hstate]
        simp

/-! ### Both scans -/

/-- **The scans of the io cache**, in every state whose blocks are filed and counted: the dirty
blocks which are found at an offset are the maximal run with it, and the pool is shrunk. -/
theorem scans (hfiled : s.Filed) (hcounted : s.Counted) :
    (∀ c p b off, s.DirtyIn c p b → off ∈ b.range →
      s.MaximalRun c p (s.blockDirtyContiguous c off)) ∧
    ∀ k, s.ctl = .shrinkIfNeeded k →
      ∃ n ≤ s.block_lru.length + 2, Shrunk s k (run step s (List.replicate n .resume)) :=
  ⟨fun _ _ _ _ hp hoff => hfiled.maximalRun hp hoff, fun _ hctl => hcounted.shrinks hctl⟩

/-- The blocks are filed and counted in every state of a run which creates no block twice. -/
theorem sound_run (h : s.Sound) (hfits : ∀ b : Block cfg, b.range.len ≤ cfg.pool_maxlen)
    {evs : List (Event cfg)} (hg : Guarded step NoSecondBlock s evs) : (run step s evs).Sound := by
  induction evs generalizing s with
  | nil => exact h
  | cons e evs ih => exact ih (h.step hfits hg.1) hg.2

/-- A file of three blocks in a pool which has room for two. -/
def threeBlocks : Setup Unit := smallSetup (3 * BLOCK_MAXLEN) false

/-- The whole file is written: two of its blocks are dirty, and the third one is new. -/
def writeAll : List (Event threeBlocks) :=
  [.write_ctor () ⟨0, 3 * BLOCK_MAXLEN - 1, Nat.zero_le _⟩ (by decide) fun _ => 7,
    .zerotimer 0] ++ List.replicate 10 .resume

theorem sound_writeAll : (Neoip.run step (init threeBlocks) writeAll).Sound :=
  sound_run (sound_init _) (fun b => by
    obtain ⟨off, h, hrange⟩ := b.aligned
    rw [hrange]
    exact smallSetup_fits _ false b.io_cache off h) (by decide +kernel)

/-- Its first block. -/
theorem dirtyIn_writeAll : ∃ b,
    (Neoip.run step (init threeBlocks) writeAll).DirtyIn () 1 b ∧ 0 ∈ b.range := by
  have hheap : ∃ b, (Neoip.run step (init threeBlocks) writeAll).heap 1 = some b ∧
      b.range.last = BLOCK_MAXLEN - 1 ∧ b.state = .DIRTY ∧ 0 ∈ b.range :=
    ⟨_, rfl, by decide +kernel, by decide +kernel, by decide +kernel⟩
  obtain ⟨b, hheap, hlast, hstate, hmem⟩ := hheap
  refine ⟨b, ⟨hheap, ?_, hstate⟩, hmem⟩
  rw [hlast]
  decide +kernel

/-- Its two dirty blocks are one run, and the pool is shrunk. -/
theorem scans_writeAll :
    let s := Neoip.run step (init threeBlocks) writeAll
    s.MaximalRun () 1 [1, 2] ∧
      ∃ n ≤ s.block_lru.length + 2,
        Shrunk s (.chunkPostProcess 0 3) (Neoip.run step s (List.replicate n .resume)) := by
  have hscans := scans sound_writeAll.toAccounted.filed sound_writeAll.toAccounted.counted
  obtain ⟨b, hdirty, hmem⟩ := dirtyIn_writeAll
  have hmax := hscans.1 () 1 b 0 hdirty hmem
  rw [show (Neoip.run step (init threeBlocks) writeAll).blockDirtyContiguous () 0 = [1, 2] by
    decide +kernel] at hmax
  exact ⟨hmax, hscans.2 _ rfl⟩

end Pool

end Neoip.IoCache
