/-
Neoip/IoCachePool.lean

The accounting of the io cache: `block_db`, the LRU list of the pool and its
length agree with the blocks there are.

A block is created when the sub-io read for it is done, or when a write covers
all of it.  Only the second checks that the block is not there yet, so two
operations which miss the same block both create it; the second block is in the
LRU list, but not in `block_db`.  A pool which is smaller than a block evicts a
block while it creates it.

`Accounted` is what `block_db`, the list and the length say, and `Handled` that
the block which the running handler is about to use is there.

Main result: where no block is created twice, the accounts are right in every
state (`consistent_run`).
-/
import Mathlib.Algebra.BigOperators.Group.List.Basic
import Neoip.IoCacheDb
import Neoip.Run

namespace Neoip.IoCache

open Std (TreeMap)

variable {κ : Type} {cfg : Setup κ}

def Ret.chunk : Ret κ → Option (ℕ × ℕ)
  | .chunkPostProcess op p => some (op, p)
  | _ => none

/-- The block which the running handler uses once the pool is shrunk, with its operation. -/
def Ctl.chunk : Ctl κ → Option (ℕ × ℕ)
  | .shrinkIfNeeded k => k.chunk
  | .startBlkwr _ _ k => k.chunk
  | .ret k => k.chunk
  | _ => none

/-- What identifies a block for the accounts. -/
def Block.place (b : Block cfg) : κ × FileRange := (b.io_cache, b.range)

namespace Pool

/-- `block_db`, the LRU list and its length agree with the blocks. -/
structure Accounted (s : Pool cfg) : Prop where
  heap_lt : ∀ p b, s.heap p = some b → p < s.next
  held : s.Held
  nodup : s.block_lru.Nodup
  mem_lru : ∀ p, p ∈ s.block_lru ↔ ∃ b, s.heap p = some b
  curlen : s.pool_curlen = ((s.block_lru.filterMap s.heap).map fun b => b.range.len).sum

/-- The LRU list has the blocks, and the length of the pool is theirs. -/
structure Counted (s : Pool cfg) : Prop where
  heap_lt : ∀ p b, s.heap p = some b → p < s.next
  nodup : s.block_lru.Nodup
  mem_lru : ∀ p, p ∈ s.block_lru ↔ ∃ b, s.heap p = some b
  curlen : s.pool_curlen = ((s.block_lru.filterMap s.heap).map fun b => b.range.len).sum

theorem Accounted.counted {s : Pool cfg} (h : s.Accounted) : s.Counted where
  heap_lt := h.heap_lt
  nodup := h.nodup
  mem_lru := h.mem_lru
  curlen := h.curlen

/-- The block of the running handler has the chunk of its operation, and until the pool is shrunk
it is the most recently used one. -/
def Handled (s : Pool cfg) : Prop :=
  ∀ op p o, s.ctl.chunk = some (op, p) → s.op_db op = some o →
    (∃ b, s.heap p = some b ∧ b.io_cache = o.io_cache ∧ o.chunkBeg ∈ b.range) ∧
      (s.ctl = .ret (.chunkPostProcess op p) ∨ s.block_lru.head? = some p)

variable {s s' : Pool cfg} {p : ℕ} {b : Block cfg} {c : κ} {k : Ret κ}

theorem chunk_of_idle (h : s.ctl = .idle) : s.ctl.chunk = none := by
  rw [h]
  rfl

theorem Handled.of_none (h : s.ctl.chunk = none) : s.Handled := by
  intro op p o hchunk _
  rw [h] at hchunk
  cases hchunk

namespace Accounted

/-! ### Frames -/

theorem heap_of_place {heap heap' : ℕ → Option (Block cfg)}
    (hplace : ∀ p, (heap' p).map Block.place = (heap p).map Block.place) (hp : heap' p = some b) :
    ∃ b', heap p = some b' ∧ b'.io_cache = b.io_cache ∧ b'.range = b.range := by
  have hp' := hplace p
  rw [hp, Option.map_some] at hp'
  obtain ⟨b', hb', heq⟩ := Option.map_eq_some_iff.1 hp'.symm
  obtain ⟨hc, hr⟩ := Prod.mk.inj heq
  exact ⟨b', hb', hc, hr⟩

theorem held_of_place (hplace : ∀ p, (s'.heap p).map Block.place = (s.heap p).map Block.place)
    (hdb : s'.block_db = s.block_db) (h : s.Held) : s'.Held := by
  intro c e p
  rw [hdb, h c e p]
  constructor
  · rintro ⟨b, hb, rfl, rfl⟩
    obtain ⟨b', hb', hc, hr⟩ := heap_of_place (fun p => (hplace p).symm) hb
    exact ⟨b', hb', hc, by rw [hr]⟩
  · rintro ⟨b, hb, rfl, rfl⟩
    obtain ⟨b', hb', hc, hr⟩ := heap_of_place hplace hb
    exact ⟨b', hb', hc, by rw [hr]⟩

end Accounted

/-- The list and the length only look at where the blocks are, and the list may be permuted. -/
theorem Counted.congr (h : s.Counted)
    (hplace : ∀ p, (s'.heap p).map Block.place = (s.heap p).map Block.place)
    (hlru : s'.block_lru.Perm s.block_lru) (hlen : s'.pool_curlen = s.pool_curlen)
    (hnext : s.next ≤ s'.next) : s'.Counted where
  heap_lt p b hb := by
    obtain ⟨b', hb', -⟩ := Accounted.heap_of_place hplace hb
    exact (h.heap_lt p b' hb').trans_le hnext
  nodup := hlru.nodup_iff.2 h.nodup
  mem_lru p := by
    rw [hlru.mem_iff, h.mem_lru]
    constructor
    · rintro ⟨b, hb⟩
      obtain ⟨b', hb', -⟩ := Accounted.heap_of_place (fun p => (hplace p).symm) hb
      exact ⟨b', hb'⟩
    · rintro ⟨b, hb⟩
      obtain ⟨b', hb', -⟩ := Accounted.heap_of_place hplace hb
      exact ⟨b', hb'⟩
  curlen := by
    have hlens : ∀ (heap : ℕ → Option (Block cfg)) (l : List ℕ),
        (l.filterMap heap).map (fun b => b.range.len) =
          (l.filterMap fun p => (heap p).map Block.place).map fun x => x.2.len := by
      intro heap l
      rw [List.map_filterMap, List.map_filterMap]
      congr 1
      funext p
      rw [Option.map_map]
      rfl
    rw [hlen, h.curlen, hlens, hlens]
    simp only [hplace]
    exact ((hlru.filterMap _).map _).sum_eq.symm

namespace Accounted

/-- The accounts only look at where the blocks are, and the LRU list may be permuted. -/
theorem congr (h : s.Accounted)
    (hplace : ∀ p, (s'.heap p).map Block.place = (s.heap p).map Block.place)
    (hdb : s'.block_db = s.block_db) (hlru : s'.block_lru.Perm s.block_lru)
    (hlen : s'.pool_curlen = s.pool_curlen) (hnext : s.next ≤ s'.next) : s'.Accounted :=
  have hcounted := h.counted.congr hplace hlru hlen hnext
  { heap_lt := hcounted.heap_lt
    held := held_of_place hplace hdb h.held
    nodup := hcounted.nodup
    mem_lru := hcounted.mem_lru
    curlen := hcounted.curlen }

/-- What does not touch the blocks keeps the accounts. -/
theorem frame (h : s.Accounted) (hheap : s'.heap = s.heap) (hdb : s'.block_db = s.block_db)
    (hlru : s'.block_lru = s.block_lru) (hlen : s'.pool_curlen = s.pool_curlen)
    (hnext : s.next ≤ s'.next) : s'.Accounted :=
  h.congr (fun p => by rw [hheap]) hdb (List.Perm.of_eq hlru) hlen hnext

/-! ### Blocks come and go -/

variable [DecidableEq κ]

omit [DecidableEq κ] in
theorem filterMap_update {heap : ℕ → Option (Block cfg)} {l : List ℕ} {o : Option (Block cfg)}
    (hp : p ∉ l) : l.filterMap (Function.update heap p o) = l.filterMap heap := by
  apply List.filterMap_congr
  intro q hq
  have hne : q ≠ p := fun heq => hp (heq ▸ hq)
  exact Function.update_of_ne hne _ _

theorem blockCtor (h : s.Accounted)
    (hfree : (s.block_db b.io_cache)[b.range.last]? = none) : (s.blockCtor b).Accounted := by
  have hnone : s.heap s.next = none := by
    by_contra hne
    obtain ⟨b', hb'⟩ := Option.ne_none_iff_exists'.1 hne
    exact lt_irrefl _ (h.heap_lt _ _ hb')
  have hnot : s.next ∉ s.block_lru := by
    rw [h.mem_lru]
    rintro ⟨b', hb'⟩
    rw [hnone] at hb'
    cases hb'
  have hmem : ¬b.range.last ∈ s.block_db b.io_cache := by
    rw [TreeMap.mem_iff_isSome_getElem?, hfree]
    exact Bool.false_ne_true
  have hheap : ∀ p b', (s.blockCtor b).heap p = some b' ↔
      (p = s.next ∧ b = b') ∨ s.heap p = some b' := by
    intro p b'
    show Function.update s.heap s.next (some b) p = some b' ↔ _
    rw [Function.update_apply]
    split_ifs with hp
    · rw [hp, hnone]
      simp
    · simp [hp]
  constructor
  · intro p b' hb'
    show p < s.next + 1
    rcases (hheap p b').1 hb' with ⟨rfl, -⟩ | hold
    · exact Nat.lt_succ_self _
    · exact (h.heap_lt p b' hold).trans (Nat.lt_succ_self _)
  · intro c e p
    simp only [hheap]
    show (Function.update s.block_db b.io_cache _ c)[e]? = some p ↔ _
    rw [Function.update_apply]
    split_ifs with hc
    · subst hc
      rw [TreeMap.getElem?_insertIfNew]
      split_ifs with hnew
      · obtain rfl := Std.LawfulEqCmp.compare_eq_iff_eq.1 hnew.1
        constructor
        · rintro heq
          obtain rfl := Option.some.inj heq
          exact ⟨b, .inl ⟨rfl, rfl⟩, rfl, rfl⟩
        · rintro ⟨b', ⟨rfl, -⟩ | hold, hc', he'⟩
          · rfl
          · -- the end was free
            have hdb := (h.held _ _ p).2 ⟨b', hold, hc', he'⟩
            rw [hfree] at hdb
            cases hdb
      · have hne : b.range.last ≠ e := fun heq =>
          hnew ⟨heq ▸ Std.ReflCmp.compare_self, hmem⟩
        rw [h.held]
        constructor
        · rintro ⟨b', hold, hrest⟩
          exact ⟨b', .inr hold, hrest⟩
        · rintro ⟨b', ⟨-, rfl⟩ | hold, hrest⟩
          · exact absurd hrest.2 hne
          · exact ⟨b', hold, hrest⟩
    · rw [h.held]
      constructor
      · rintro ⟨b', hold, hrest⟩
        exact ⟨b', .inr hold, hrest⟩
      · rintro ⟨b', ⟨-, rfl⟩ | hold, hrest⟩
        · exact absurd hrest.1.symm hc
        · exact ⟨b', hold, hrest⟩
  · exact List.nodup_cons.2 ⟨hnot, h.nodup⟩
  · intro p
    simp only [hheap]
    show p ∈ s.next :: s.block_lru ↔ _
    rw [List.mem_cons, h.mem_lru]
    constructor
    · rintro (rfl | ⟨b', hb'⟩)
      · exact ⟨b, .inl ⟨rfl, rfl⟩⟩
      · exact ⟨b', .inr hb'⟩
    · rintro ⟨b', ⟨rfl, -⟩ | hold⟩
      · exact .inl rfl
      · exact .inr ⟨b', hold⟩
  · show s.pool_curlen + b.range.len = _
    have hself : (s.blockCtor b).heap s.next = some b := Function.update_self ..
    have hrest : s.block_lru.filterMap (s.blockCtor b).heap = s.block_lru.filterMap s.heap :=
      filterMap_update hnot
    rw [show (s.blockCtor b).block_lru = s.next :: s.block_lru from rfl,
      List.filterMap_cons_some hself, hrest, List.map_cons, List.sum_cons, h.curlen]
    exact Nat.add_comm _ _

omit [DecidableEq κ] in
theorem mem_update_none {heap : ℕ → Option (Block cfg)} {q : ℕ} {b' : Block cfg} :
    Function.update heap p none q = some b' ↔ q ≠ p ∧ heap q = some b' := by
  rw [Function.update_apply]
  split_ifs with hq <;> simp [hq]

end Accounted

theorem Counted.blockDtor [DecidableEq κ] (h : s.Counted) (p : ℕ) : (s.blockDtor p).Counted := by
  unfold Pool.blockDtor
  cases hp : s.heap p with
  | none => exact h
  | some b =>
    have hin : p ∈ s.block_lru := (h.mem_lru p).2 ⟨b, hp⟩
    constructor
    · intro q b' hb'
      exact h.heap_lt q b' (Accounted.mem_update_none.1 hb').2
    · exact h.nodup.erase p
    · intro q
      simp only [Accounted.mem_update_none]
      show q ∈ s.block_lru.erase p ↔ _
      rw [h.nodup.mem_erase_iff, h.mem_lru]
      constructor
      · rintro ⟨hne, b', hq⟩
        exact ⟨b', hne, hq⟩
      · rintro ⟨b', hne, hq⟩
        exact ⟨hne, b', hq⟩
    · show s.pool_curlen - b.range.len = _
      have hnot : p ∉ s.block_lru.erase p := fun hmem => (h.nodup.mem_erase_iff.1 hmem).1 rfl
      have hperm := ((List.perm_cons_erase hin).filterMap s.heap).map fun b => b.range.len
      rw [List.filterMap_cons_some hp, List.map_cons] at hperm
      show _ = (((s.block_lru.erase p).filterMap (Function.update s.heap p none)).map _).sum
      rw [Accounted.filterMap_update hnot, h.curlen, hperm.sum_eq, List.sum_cons]
      exact Nat.add_sub_cancel_left ..

namespace Accounted

variable [DecidableEq κ]

theorem held_blockDtor (h : s.Accounted) (p : ℕ) : (s.blockDtor p).Held := by
  unfold Pool.blockDtor
  cases hp : s.heap p with
  | none => exact h.held
  | some b =>
    intro c e q
    simp only [mem_update_none]
    show (Function.update s.block_db b.io_cache _ c)[e]? = some q ↔ _
    -- an entry of `block_db` is gone when it is the one of the block
    have hone : ∀ b', s.heap q = some b' → b'.io_cache = c → b'.range.last = e →
        (q = p ↔ c = b.io_cache ∧ e = b.range.last) := by
      rintro b' hq rfl rfl
      constructor
      · rintro rfl
        rw [hp] at hq
        obtain rfl := Option.some.inj hq
        exact ⟨rfl, rfl⟩
      · rintro ⟨hc, he⟩
        have hdb := (h.held _ _ q).2 ⟨b', hq, rfl, rfl⟩
        rw [hc, he, (h.held _ _ p).2 ⟨b, hp, rfl, rfl⟩] at hdb
        exact (Option.some.inj hdb).symm
    have hold : (Function.update s.block_db b.io_cache
        ((s.block_db b.io_cache).erase b.range.last) c)[e]? = some q ↔
        ¬(c = b.io_cache ∧ e = b.range.last) ∧ (s.block_db c)[e]? = some q := by
      rw [Function.update_apply]
      split_ifs with hc
      · subst hc
        rw [TreeMap.getElem?_erase]
        split_ifs with he
        · obtain rfl := Std.LawfulEqCmp.compare_eq_iff_eq.1 he
          simp
        · have hne : e ≠ b.range.last := fun heq =>
            he (heq ▸ Std.ReflCmp.compare_self)
          simp [hne]
      · simp [hc]
    rw [hold, h.held]
    constructor
    · rintro ⟨hne, b', hq, hc, he⟩
      exact ⟨b', ⟨fun heq => hne ((hone b' hq hc he).1 heq), hq⟩, hc, he⟩
    · rintro ⟨b', ⟨hne, hq⟩, hc, he⟩
      exact ⟨fun heq => hne ((hone b' hq hc he).2 heq), b', hq, hc, he⟩

theorem blockDtor (h : s.Accounted) (p : ℕ) : (s.blockDtor p).Accounted where
  heap_lt := (h.counted.blockDtor p).heap_lt
  held := h.held_blockDtor p
  nodup := (h.counted.blockDtor p).nodup
  mem_lru := (h.counted.blockDtor p).mem_lru
  curlen := (h.counted.blockDtor p).curlen

theorem blockRemoveIncludedIn (h : s.Accounted) (c : κ) (range : FileRange) :
    (s.blockRemoveIncludedIn c range).Accounted := by
  unfold Pool.blockRemoveIncludedIn
  generalize s.blockFullyIncludedIn c range = l
  induction l generalizing s with
  | nil => exact h
  | cons p l ih => exact ih (h.blockDtor p)

end Accounted

/-! ### One step -/

/-- No block is created where the cache has one. -/
def NoSecondBlock (s : Pool cfg) : Event cfg → Prop
  | .resume =>
    match s.ctl with
    | .newBlock op _ =>
      ∀ o ∈ s.op_db op, (s.block_db o.io_cache)[o.blockRange.last]? = none
    | _ => True
  | _ => True

variable [DecidableEq κ] {op w off : ℕ} {o : Op cfg} {e : Event cfg}

/-- The accounts are right, also for the block of the running handler. -/
structure Sound (s : Pool cfg) : Prop extends s.Accounted where
  handled : s.Handled

namespace Sound

theorem shrinkIfNeeded (h : s.Sound) (hctl : s.ctl = .shrinkIfNeeded k)
    (hfits : ∀ b : Block cfg, b.range.len ≤ cfg.pool_maxlen) : (s.shrinkIfNeeded k).Sound := by
  have hhead : ∀ op p o, k.chunk = some (op, p) → s.op_db op = some o →
      (∃ b, s.heap p = some b ∧ b.io_cache = o.io_cache ∧ o.chunkBeg ∈ b.range) ∧
        s.block_lru.head? = some p := by
    intro op p o hchunk ho
    have hchunk' : s.ctl.chunk = some (op, p) := by rw [hctl, ← hchunk, Ctl.chunk]
    obtain ⟨hb, hcur | hhead⟩ := h.handled op p o hchunk' ho
    · rw [hctl] at hcur
      cases hcur
    · exact ⟨hb, hhead⟩
  -- the loop is left: the handler goes on with `k`
  have hleave : ∀ k' : Ctl κ, k'.chunk = k.chunk → Sound { s with ctl := k' } := fun k' hk =>
    { toAccounted := h.frame rfl rfl rfl rfl (le_refl _)
      handled := fun op p o hchunk ho =>
        have hb := hhead op p o (hk ▸ hchunk) ho
        ⟨hb.1, .inr hb.2⟩ }
  unfold Pool.shrinkIfNeeded
  split_ifs with hlen
  · exact hleave (.ret k) rfl
  · cases hlast : s.block_lru.getLast? with
    | none => exact hleave (.ret k) rfl
    | some q =>
      have hq : q ∈ s.block_lru := List.mem_of_getLast? hlast
      obtain ⟨b, hb⟩ := (h.mem_lru q).1 hq
      simp only [hb]
      cases hstate : b.state with
      | DIRTY => exact hleave (.startBlkwr b.io_cache b.range.beg k) rfl
      | CLEANING => exact hleave (.ret k) rfl
      | CLEAN =>
        refine { toAccounted := h.blockDtor q, handled := ?_ }
        have hdtor : s.blockDtor q =
            { s with
              heap := Function.update s.heap q none
              block_db := Function.update s.block_db b.io_cache
                ((s.block_db b.io_cache).erase b.range.last)
              block_lru := s.block_lru.erase q
              pool_curlen := s.pool_curlen - b.range.len } := by
          rw [Pool.blockDtor, hb]
        rw [hdtor]
        intro op p o hchunk ho
        have hchunk : s.ctl.chunk = some (op, p) := hchunk
        rw [hctl] at hchunk
        obtain ⟨⟨b', hb', hrest⟩, hp⟩ := hhead op p o hchunk ho
        obtain ⟨l, hl⟩ := List.head?_eq_some_iff.1 hp
        -- alone in the list, the block would fit in the pool
        have hne : p ≠ q := by
          rintro rfl
          have hone : l = [] := by
            cases l with
            | nil => rfl
            | cons a l =>
              have hnodup := h.nodup
              rw [hl, List.nodup_cons] at hnodup
              rw [hl, List.getLast?_cons_cons] at hlast
              exact absurd (List.mem_of_getLast? hlast) hnodup.1
          have hcur := h.curlen
          rw [hl, hone, List.filterMap_cons_some hb] at hcur
          refine hlen (le_of_eq_of_le hcur ?_)
          simpa using hfits b
        refine ⟨⟨b', ?_, hrest⟩, .inr ?_⟩
        · show Function.update s.heap q none p = some b'
          rw [Function.update_of_ne hne, hb']
        · show (s.block_lru.erase q).head? = some p
          rw [hl, List.erase_cons_tail (by simpa using hne)]
          rfl

theorem newBlock (h : s.Sound)
    (hfree : ∀ o, s.op_db op = some o → (s.block_db o.io_cache)[o.blockRange.last]? = none)
    (datum : Bytes) : (s.newBlock op datum).Sound := by
  unfold Pool.newBlock
  cases ho : s.op_db op with
  | none => exact { toAccounted := h.frame rfl rfl rfl rfl (le_refl _), handled := Handled.of_none rfl }
  | some o =>
    refine
      { toAccounted := (h.blockCtor (hfree o ho)).frame rfl rfl rfl rfl (le_refl _)
        handled := ?_ }
    intro op' p o' hchunk ho'
    obtain ⟨rfl, rfl⟩ := Prod.mk.inj (Option.some.inj hchunk)
    have ho' : s.op_db op = some o' := ho'
    rw [ho] at ho'
    obtain rfl := Option.some.inj ho'
    exact ⟨⟨_, Function.update_self .., rfl, o.chunkBeg_mem_blockRange⟩, .inr rfl⟩

omit [DecidableEq κ] in
theorem launchNextChunk (h : s.Sound) (op : ℕ) : (s.launchNextChunk op).Sound := by
  unfold Pool.launchNextChunk
  cases ho : s.op_db op with
  | none => exact { toAccounted := h.frame rfl rfl rfl rfl (le_refl _), handled := Handled.of_none rfl }
  | some o =>
    dsimp only
    cases hfind : s.blockFind o.io_cache o.chunkBeg with
    | none =>
      dsimp only
      split_ifs
      · exact { toAccounted := h.frame rfl rfl rfl rfl (le_refl _), handled := Handled.of_none rfl }
      · exact { toAccounted := h.frame rfl rfl rfl rfl (le_refl _), handled := Handled.of_none rfl }
    | some p =>
      refine { toAccounted := h.frame rfl rfl rfl rfl (le_refl _), handled := ?_ }
      intro op' p' o' hchunk ho'
      obtain ⟨rfl, rfl⟩ := Prod.mk.inj (Option.some.inj hchunk)
      have ho' : s.op_db op = some o' := ho'
      rw [ho] at ho'
      obtain rfl := Option.some.inj ho'
      exact ⟨h.held.blockFind_eq_some.1 hfind, .inl rfl⟩

omit [DecidableEq κ] in
/-- The running handler finds its block, and bytes of its operation in it. -/
theorem commonRange_eq_some (h : s.Sound) (hctl : s.ctl = .ret (.chunkPostProcess op p))
    (ho : s.op_db op = some o) :
    ∃ b common, s.commonRange p o = some (b, common) ∧ s.heap p = some b ∧
      b.io_cache = o.io_cache ∧ o.chunkBeg ∈ b.range ∧
      b.range.clampedBy o.totfile_range = some common := by
  obtain ⟨⟨b, hb, hc, hin⟩, -⟩ := h.handled op p o (by rw [hctl, Ctl.chunk, Ret.chunk]) ho
  obtain ⟨common, hcommon⟩ := FileRange.clampedBy_isSome hin o.chunkBeg_mem
  refine ⟨b, common, ?_, hb, hc, hin, hcommon⟩
  rw [commonRange, hb, Option.bind_some, hcommon, Option.map_some]

omit [DecidableEq κ] in
theorem notifyFailure (h : s.Sound) (op : ℕ) (o : Op cfg) : (s.notifyFailure op o).Sound :=
  { toAccounted := h.frame rfl rfl rfl rfl (le_refl _), handled := Handled.of_none rfl }

omit [DecidableEq κ] in
theorem blockLruUpdate_perm (h : s.Sound) (hp : s.heap p = some b) :
    (p :: s.block_lru.erase p).Perm s.block_lru :=
  (List.perm_cons_erase ((h.mem_lru p).2 ⟨b, hp⟩)).symm

omit [DecidableEq κ] in
theorem place_notifyWrite (hp : s.heap p = some b) (datum : Bytes) (q : ℕ) :
    ((Function.update s.heap p (some (b.notifyWrite datum))) q).map Block.place =
      (s.heap q).map Block.place := by
  rw [Function.update_apply]
  split_ifs with hq
  · rw [hq, hp]
    rfl
  · rfl

omit [DecidableEq κ] in
theorem chunkPostProcess (h : s.Sound) (hctl : s.ctl = .ret (.chunkPostProcess op p)) :
    (s.chunkPostProcess op p).Sound := by
  unfold Pool.chunkPostProcess
  cases ho : s.op_db op with
  | none => exact { toAccounted := h.frame rfl rfl rfl rfl (le_refl _), handled := Handled.of_none rfl }
  | some o =>
    obtain ⟨b, common, hcommon, hb, -⟩ := h.commonRange_eq_some hctl ho
    have hlru := h.blockLruUpdate_perm hb
    dsimp only
    cases o.job with
    | read buffer =>
      simp only [readChunk, hcommon]
      split
      · exact
          { toAccounted := h.congr (fun _ => rfl) rfl hlru rfl (le_refl _)
            handled := Handled.of_none rfl }
      · exact
          { toAccounted := h.congr (fun _ => rfl) rfl hlru rfl (le_refl _)
            handled := Handled.of_none rfl }
    | write data2write =>
      dsimp only
      split_ifs
      · exact h.notifyFailure op o
      · simp only [writeChunk, hcommon]
        split
        · exact
            { toAccounted := h.congr (place_notifyWrite hb _) rfl hlru rfl (le_refl _)
              handled := Handled.of_none rfl }
        · exact
            { toAccounted := h.congr (place_notifyWrite hb _) rfl hlru rfl (le_refl _)
              handled := Handled.of_none rfl }

omit [DecidableEq κ] in
/-- Changing the state of some blocks leaves them where they are. -/
theorem place_ite {f : Block cfg → Block cfg} (hf : ∀ b, (f b).place = b.place) (l : List ℕ)
    (q : ℕ) : ((if q ∈ l then (s.heap q).map f else s.heap q)).map Block.place =
      (s.heap q).map Block.place := by
  split_ifs
  · rw [Option.map_map]
    congr 1
    funext b
    exact hf b
  · rfl

omit [DecidableEq κ] in
theorem startBlkwr (h : s.Sound) (hctl : s.ctl = .startBlkwr c off k) :
    Sound { s.startBlkwr c off with ctl := .ret k } := by
  have hhandled : ∀ op p o, k.chunk = some (op, p) → s.op_db op = some o →
      (∃ b, s.heap p = some b ∧ b.io_cache = o.io_cache ∧ o.chunkBeg ∈ b.range) ∧
        s.block_lru.head? = some p := by
    intro op p o hchunk ho
    obtain ⟨hb, hcur | hhead⟩ := h.handled op p o (by rw [hctl, ← hchunk, Ctl.chunk]) ho
    · rw [hctl] at hcur
      cases hcur
    · exact ⟨hb, hhead⟩
  unfold Pool.startBlkwr
  cases s.blkwrRange c off with
  | none =>
    exact
      { toAccounted := h.frame rfl rfl rfl rfl (le_refl _)
        handled := fun op p o hchunk ho =>
          have hb := hhandled op p o hchunk ho
          ⟨hb.1, .inr hb.2⟩ }
  | some range =>
    have hplace := place_ite (s := s) (f := Block.notifyCleaning) (fun _ => rfl)
      (s.blockDirtyContiguous c off)
    refine
      { toAccounted := h.congr hplace rfl (List.Perm.refl _) rfl (Nat.le_succ _), handled := ?_ }
    intro op p o hchunk ho
    obtain ⟨⟨b, hb, hc, hin⟩, hhead⟩ := hhandled op p o hchunk ho
    obtain ⟨b', hb', hc', hr'⟩ := Accounted.heap_of_place (fun q => (hplace q).symm) hb
    exact ⟨⟨b', hb', hc'.trans hc, hr' ▸ hin⟩, .inr hhead⟩

omit [DecidableEq κ] in
theorem startBlkwrAll (h : s.Sound) (c : κ) : (s.startBlkwrAll c).Sound := by
  unfold Pool.startBlkwrAll
  split
  · exact { toAccounted := h.frame rfl rfl rfl rfl (le_refl _), handled := Handled.of_none rfl }
  · exact { toAccounted := h.frame rfl rfl rfl rfl (le_refl _), handled := Handled.of_none rfl }

theorem notifyBlkwrCompletion (h : s.Sound) (c : κ) : (s.notifyBlkwrCompletion c).Sound := by
  unfold Pool.notifyBlkwrCompletion
  split
  · exact { toAccounted := h.frame rfl rfl rfl rfl (le_refl _), handled := Handled.of_none rfl }
  · exact { toAccounted := h.frame rfl rfl rfl rfl (le_refl _), handled := Handled.of_none rfl }

theorem blockRemoveIncludedIn_ctl (s : Pool cfg) (c : κ) (range : FileRange) :
    (s.blockRemoveIncludedIn c range).ctl = s.ctl := by
  unfold Pool.blockRemoveIncludedIn
  generalize s.blockFullyIncludedIn c range = l
  induction l generalizing s with
  | nil => rfl
  | cons p l ih =>
    rw [List.foldl_cons, ih, blockDtor]
    split <;> rfl

theorem writeThru (h : s.Sound) (hctl : s.ctl = .idle) (c : κ) (range : FileRange)
    (data : Bytes) : (s.writeThru c range data).Sound := by
  refine
    { toAccounted := (h.blockRemoveIncludedIn c range).frame rfl rfl rfl rfl (Nat.le_succ _)
      handled := Handled.of_none ?_ }
  show (s.blockRemoveIncludedIn c range).ctl.chunk = none
  rw [blockRemoveIncludedIn_ctl, chunk_of_idle hctl]

theorem subioWriteCb (h : s.Sound) (hctl : s.ctl = .idle) (w : ℕ) (bt_err : BtErr) :
    (s.subioWriteCb w bt_err).Sound := by
  unfold Pool.subioWriteCb
  cases hw : s.subio_db.get w with
  | none => exact h
  | some wr =>
    dsimp only
    have hidle := chunk_of_idle hctl
    split_ifs
    · exact h
    · cases bt_err with
      | OK =>
        have hcleaned : ∀ b : Block cfg, b.notifyCleaned.place = b.place := by
          intro b
          unfold Block.notifyCleaned
          split_ifs <;> rfl
        exact
          { toAccounted := h.congr (place_ite hcleaned _) rfl (List.Perm.refl _) rfl (le_refl _)
            handled := Handled.of_none rfl }
      | ERROR =>
        exact { toAccounted := h.frame rfl rfl rfl rfl (le_refl _), handled := Handled.of_none rfl }
    · exact { toAccounted := h.frame rfl rfl rfl rfl (le_refl _), handled := Handled.of_none hidle }

omit [DecidableEq κ] in
theorem zerotimer (h : s.Sound) (op : ℕ) : (s.zerotimer op).Sound := by
  unfold Pool.zerotimer
  split
  · exact h
  · split
    · exact { toAccounted := h.frame rfl rfl rfl rfl (le_refl _), handled := Handled.of_none rfl }
    · exact h

omit [DecidableEq κ] in
theorem subioRead (h : s.Sound) (hctl : s.ctl = .idle) (op : ℕ) : (s.subioRead op).Sound := by
  have hidle := chunk_of_idle hctl
  unfold Pool.subioRead
  split
  · exact h
  · split
    · exact { toAccounted := h.frame rfl rfl rfl rfl (le_refl _), handled := Handled.of_none hidle }
    · exact h

omit [DecidableEq κ] in
theorem blkrdCb (h : s.Sound) (op : ℕ) (bt_err : BtErr) : (s.blkrdCb op bt_err).Sound := by
  unfold Pool.blkrdCb
  split
  · exact h
  · split
    · exact { toAccounted := h.frame rfl rfl rfl rfl (le_refl _), handled := Handled.of_none rfl }
    · exact h.notifyFailure op _
    · exact h

theorem subioWrite (h : s.Sound) (hctl : s.ctl = .idle) (w : ℕ) : (s.subioWrite w).Sound := by
  have hidle := chunk_of_idle hctl
  unfold Pool.subioWrite
  split
  · exact h
  · split_ifs
    · exact h
    · exact { toAccounted := h.frame rfl rfl rfl rfl (le_refl _), handled := Handled.of_none hidle }
    · exact { toAccounted := h.frame rfl rfl rfl rfl (le_refl _), handled := Handled.of_none hidle }

omit [DecidableEq κ] in
theorem opCtor (h : s.Sound) (hctl : s.ctl = .idle) (range : FileRange)
    (inside : range.last < cfg.totfile_size c) (job : Job) :
    (s.opCtor c range inside job).Sound :=
  { toAccounted := h.frame rfl rfl rfl rfl (Nat.le_succ _)
    handled := Handled.of_none (chunk_of_idle hctl) }

theorem handle (h : s.Sound) (hctl : s.ctl = .idle) (e : Event cfg) : (s.handle e).Sound := by
  have hidle := chunk_of_idle hctl
  cases e with
  | read_ctor c range inside => exact h.opCtor hctl range inside _
  | write_ctor c range inside data =>
    rw [Pool.handle]
    split_ifs
    · exact h.writeThru hctl c range data
    · exact h.opCtor hctl range inside _
  | zerotimer op => exact h.zerotimer op
  | subio_read op => exact h.subioRead hctl op
  | blkrd_cb op bt_err => exact h.blkrdCb op bt_err
  | subio_write w => exact h.subioWrite hctl w
  | subio_write_cb w bt_err => exact h.subioWriteCb hctl w bt_err
  | cleaning_timeout c =>
    exact { toAccounted := h.frame rfl rfl rfl rfl (le_refl _), handled := Handled.of_none rfl }
  | stopping_ctor c =>
    exact { toAccounted := h.frame rfl rfl rfl rfl (le_refl _), handled := Handled.of_none hidle }
  | resume => exact h

theorem resume (h : s.Sound) (hfits : ∀ b : Block cfg, b.range.len ≤ cfg.pool_maxlen)
    (hg : s.NoSecondBlock .resume) : s.resume.Sound := by
  unfold Pool.resume
  cases hctl : s.ctl with
  | idle => exact h
  | launchNextChunk op => exact h.launchNextChunk op
  | newBlock op datum =>
    rw [NoSecondBlock, hctl] at hg
    exact h.newBlock hg datum
  | shrinkIfNeeded k => exact h.shrinkIfNeeded hctl hfits
  | startBlkwr c off k => exact h.startBlkwr hctl
  | ret k =>
    cases k with
    | chunkPostProcess op p => exact h.chunkPostProcess hctl
    | startBlkwrAll c => exact h.startBlkwrAll c
    | notifyBlkwrCompletion c => exact h.notifyBlkwrCompletion c

/-- A step keeps the accounts, unless it creates a block which is there already. -/
theorem step (h : s.Sound) (hfits : ∀ b : Block cfg, b.range.len ≤ cfg.pool_maxlen)
    (hg : s.NoSecondBlock e) : (s.step e).Sound := by
  unfold Pool.step
  split
  next hctl => exact h.handle hctl _
  next => exact h.resume hfits hg
  next => exact h

end Sound

omit [DecidableEq κ] in
theorem sound_init (cfg : Setup κ) : (init cfg).Sound where
  heap_lt _ _ h := by cases h
  held c e p := by
    show (∅ : TreeMap ℕ ℕ)[e]? = some p ↔ _
    rw [TreeMap.getElem?_emptyc]
    constructor
    · intro h
      cases h
    · rintro ⟨b, h, -⟩
      cases h
  nodup := List.nodup_nil
  mem_lru p := by
    constructor
    · intro h
      cases h
    · rintro ⟨b, h⟩
      cases h
  curlen := rfl
  handled := Handled.of_none rfl

/-! ### Runs -/

/-- The blocks of a pool as they should be: each offset is in at most one block of a cache, the
blocks are aligned, `block_db` and the LRU list have exactly these blocks, and the length of the
pool is theirs. -/
structure Consistent (s : Pool cfg) : Prop where
  one_block : ∀ p q b b', s.heap p = some b → s.heap q = some b' → b.io_cache = b'.io_cache →
    ∀ off, off ∈ b.range → off ∈ b'.range → p = q
  aligned : ∀ p b, s.heap p = some b → BLOCK_ALIGN_SIZE ∣ b.range.beg ∧ b.range.len ≤ BLOCK_MAXLEN
  held : s.Held
  nodup : s.block_lru.Nodup
  mem_lru : ∀ p, p ∈ s.block_lru ↔ ∃ c, ∃ e : ℕ, (s.block_db c)[e]? = some p
  curlen : s.pool_curlen = ((s.block_lru.filterMap s.heap).map fun b => b.range.len).sum

omit [DecidableEq κ] in
theorem Sound.consistent (h : s.Sound) : s.Consistent where
  one_block p q b b' hp hq hc off hoff hoff' := h.held.eq_of_mem hp hq hc hoff hoff'
  aligned p b hp := by
    obtain ⟨off, hlt, hrange⟩ := b.aligned
    rw [hrange]
    exact ⟨dvd_blockRangeFor_beg, len_blockRangeFor_le⟩
  held := h.held
  nodup := h.nodup
  mem_lru p := by
    rw [h.mem_lru]
    constructor
    · rintro ⟨b, hb⟩
      exact ⟨b.io_cache, b.range.last, (h.held _ _ _).2 ⟨b, hb, rfl, rfl⟩⟩
    · rintro ⟨c, e, hdb⟩
      obtain ⟨b, hb, -⟩ := (h.held _ _ _).1 hdb
      exact ⟨b, hb⟩
  curlen := h.curlen

theorem step_resume (s : Pool cfg) : s.step .resume = s.resume := by
  unfold Pool.step
  split
  next hctl =>
    rw [Pool.resume, hctl]
    rfl
  next => rfl
  next hne => exact absurd rfl hne

/-- A block which is created a second time has the offsets of the first one. -/
theorem noSecondBlock_of_consistent (h : s.Sound) (hnext : (s.step e).Consistent) :
    s.NoSecondBlock e := by
  cases e with
  | resume =>
    unfold NoSecondBlock
    dsimp only
    split
    next op datum hctl =>
      intro o ho
      have ho : s.op_db op = some o := ho
      by_contra hne
      obtain ⟨p, hp⟩ := Option.ne_none_iff_exists'.1 hne
      obtain ⟨b, hb, hc, hlast⟩ := (h.held _ _ _).1 hp
      have hlt := h.heap_lt p b hb
      rw [step_resume, Pool.resume, hctl] at hnext
      dsimp only at hnext
      rw [Pool.newBlock, ho] at hnext
      have heq := hnext.one_block p s.next b _ (by
          show Function.update s.heap s.next _ p = some b
          rw [Function.update_of_ne hlt.ne, hb])
        (Function.update_self ..) hc o.blockRange.last (hlast ▸ b.last_mem)
        ⟨o.blockRange.le, le_refl _⟩
      exact hlt.ne heq
    next => trivial
  | _ => trivial

/-- **The blocks are consistent in every state of a run exactly when no block is created where
the cache has one**, for a pool which has room for each block. -/
theorem consistent_run (hfits : ∀ c off h,
      (blockRangeFor (cfg.totfile_size c) off h).len ≤ cfg.pool_maxlen) (evs : List (Event cfg)) :
    Always step Consistent (init cfg) evs ↔ Guarded step NoSecondBlock (init cfg) evs := by
  have hfits : ∀ b : Block cfg, b.range.len ≤ cfg.pool_maxlen := by
    intro b
    obtain ⟨off, h, hrange⟩ := b.aligned
    rw [hrange]
    exact hfits b.io_cache off h
  have hinit := sound_init cfg
  generalize init cfg = s at hinit
  induction evs generalizing s with
  | nil =>
    rw [always_nil]
    exact ⟨fun _ => guarded_nil s, fun _ => hinit.consistent⟩
  | cons e evs ih =>
    rw [always_cons, guarded_cons]
    constructor
    · rintro ⟨-, hrest⟩
      have hg := noSecondBlock_of_consistent hinit hrest.head
      exact ⟨hg, (ih _ (hinit.step hfits hg)).1 hrest⟩
    · rintro ⟨hg, hrest⟩
      exact ⟨hinit.consistent, (ih _ (hinit.step hfits hg)).2 hrest⟩

/-! ### Two reads of one block -/

instance (s : Pool cfg) (e : Event cfg) : Decidable (s.NoSecondBlock e) := by
  unfold NoSecondBlock
  split
  · split <;> infer_instance
  · infer_instance

/-- One cache, over a file of zeros, whose pool has room for two blocks. -/
def smallSetup (totfile_size : ℕ) (write_thru : Bool) : Setup Unit where
  totfile_size _ := totfile_size
  write_thru _ := write_thru
  pool_maxlen := 2 * BLOCK_MAXLEN
  malloc _ _ := 0
  disk _ _ := 0

theorem smallSetup_fits (totfile_size : ℕ) (write_thru : Bool) (c : Unit) (off : ℕ)
    (h : off < (smallSetup totfile_size write_thru).totfile_size c) :
    (blockRangeFor ((smallSetup totfile_size write_thru).totfile_size c) off h).len ≤
      (smallSetup totfile_size write_thru).pool_maxlen :=
  len_blockRangeFor_le.trans (show BLOCK_MAXLEN ≤ 2 * BLOCK_MAXLEN by decide)

/-- The bounds of the ranges below are in order. -/
theorem first_le : (0 : ℕ) ≤ 0 := le_refl 0

theorem first_le_second : (0 : ℕ) ≤ 1 := Nat.zero_le 1

/-- A file of one byte is read twice, and the second read is asked when the first has its
block. -/
def readTwice : List (Event (smallSetup 1 false)) :=
  [.read_ctor () ⟨0, 0, first_le⟩ Nat.one_pos, .zerotimer 0, .resume, .subio_read 0,
    .blkrd_cb 0 .OK, .resume, .resume, .resume,
    .read_ctor () ⟨0, 0, first_le⟩ Nat.one_pos, .zerotimer 2, .resume, .resume]

theorem consistent_readTwice : Always step Consistent (init (smallSetup 1 false)) readTwice :=
  (consistent_run (smallSetup_fits 1 false) readTwice).2 (by decide)

/-- Both reads are asked before the sub-io answers the first. -/
def readAtOnce : List (Event (smallSetup 1 false)) :=
  [.read_ctor () ⟨0, 0, first_le⟩ Nat.one_pos, .zerotimer 0, .resume,
    .read_ctor () ⟨0, 0, first_le⟩ Nat.one_pos, .zerotimer 1, .resume,
    .subio_read 0, .subio_read 1, .blkrd_cb 0 .OK, .resume, .resume, .resume,
    .blkrd_cb 1 .OK, .resume]

/-- The second read creates the block again. -/
theorem not_consistent_readAtOnce :
    ¬Always step Consistent (init (smallSetup 1 false)) readAtOnce := by
  intro h
  have heq : 2 = 3 := h.run.one_block 2 3 _ _ rfl rfl rfl 0 (by decide) (by decide)
  exact absurd heq (by decide)

end Pool

end Neoip.IoCache
