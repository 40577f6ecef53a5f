import Elcrq.Malloc.PageSteps

/-! # Every interleaving

The invariant holds at the start and every step keeps it, whichever thread takes it. So
the blocks that the program has never overlap, no assertion fails but the one on the
page table, and a thread waits only for one that can go on. -/

set_option autoImplicit false

namespace Elcrq.Malloc

open Elcrq.Store

universe u

variable {τ : Type u} {Q : Tally} {os : ℕ → Bool} {s s' : State τ} {g : Ghost τ} {t : τ} {l : ℕ}

theorem sysInv_init : SysInv Q (init : State τ)
    ⟨basePages 0 3, fun _ => .page, fun _ => [], fun _ => [], fun _ _ => [], fun _ _ => [],
      fun _ _ => []⟩ := by
  have noSmall : ∀ p l, (⟨p, 1, .small l⟩ : Block) ∉ basePages 0 3 := fun p l member => by
    obtain ⟨n, -, -, same⟩ := mem_basePages.mp member
    cases same
  have noChunk : ∀ l a, ¬ IsChunk (basePages 0 3) l a := fun l a chunk => noSmall _ _ chunk.1
  refine ⟨heapOk_msetup, fun l small => ⟨⟨⟨rfl, ?_⟩, ?_, ?_, ?_, ?_, ?_, ?_⟩, fun t => ?_, fun t => ?_⟩,
    ?_, fun t => trivial, fun a n => ?_, List.nodup_nil, fun p n e block => ?_, by simp [init], ?_⟩
  · simp
  · simp
  · exact fun p block _ => absurd block (noSmall p l)
  · exact fun a chunk => absurd chunk (noChunk l a)
  · simp
  · simp
  · simp
  · refine ⟨.of_tally Q.start (by simp [init, Pc.behalf]), ⟨rfl, rfl, rfl⟩, List.nodup_nil, fun a => ?_⟩
    exact iff_of_false (by simp) fun both => noChunk l a both.1
  · exact iff_of_false (by simp [init]) (by simp [init, Pc.holds])
  · simp [init, Pc.cls]
  · exact iff_of_false (by simp [init]) fun both => by cases both.2
  · obtain ⟨m, -, -, same⟩ := mem_basePages.mp block
    cases same
  · exact fun l a chunk => absurd chunk (noChunk l a)

theorem SysInv.write {a n b v : ℕ} (inv : SysInv Q s g) (inLive : (a, n) ∈ s.live) (above : a ≤ b)
    (below : b < a + n) : SysInv Q { s with shared := s.shared.setNext b v } g := by
  obtain ⟨piece, owned⟩ := (inv.live a n).mp inLive
  have next : ∀ l c, IsChunk g.blocks l c → g.owner c ≠ .program →
      (s.shared.setNext b v).next c = s.shared.next c := by
    intro l c chunk other
    refine Function.update_of_ne ?_ _ _
    rintro rfl
    have notSame : a ≠ c := by
      rintro rfl
      exact other owned
    have whole : Piece g.blocks c (size l) := Or.inr ⟨l, chunk, rfl⟩
    have some := size_pos l
    rcases piece.disjoint inv.heap.inv whole notSame with before | after
    · omega
    · omega
  refine ⟨inv.heap, fun l small => ⟨?_, fun t => ?_, (inv.classes l small).lock⟩, inv.inClass, inv.pages,
    inv.live, inv.nodup, inv.used, fun fl member => ?_, fun l c chunk lost => ?_⟩
  · refine (inv.classes l small).shelves.congr rfl rfl (fun _ => Iff.rfl) (fun _ _ => rfl)
      (fun _ _ => rfl) (fun _ _ => Iff.rfl) (fun c chunk page => next l c chunk ?_) (fun _ => id)
      (fun _ => id) id
    simp [page]
  · refine ((inv.classes l small).holding t).congr rfl rfl rfl rfl rfl (fun c chunk mine => ?_)
      fun _ => Iff.rfl
    exact next l c chunk (by simp [mine])
  · obtain ⟨list, chain, all⟩ := inv.stray fl member
    refine ⟨list, chain.congr fun d here => ?_, all⟩
    obtain ⟨l, chunk, lost⟩ := all d here
    exact next l d chunk (by simp [lost])
  · obtain ⟨fl, member, list, chain, inside, all⟩ := inv.lost l c chunk lost
    refine ⟨fl, member, list, chain.congr fun d here => ?_, inside, all⟩
    exact next l d (all d here).1 (by simp [(all d here).2])

theorem SysInv.extent {a n : ℕ} (inv : SysInv Q s g) (inLive : (a, n) ∈ s.live)
    (big' : ¬ (s.shared.heap.desc (a / pageSize)).code < numSmall) :
    ∃ p k, a = p * pageSize ∧ n = k * pageSize ∧ (s.shared.heap.desc p).code = big ∧
      (⟨p, k, .used (s.shared.heap.desc p).page⟩ : Block) ∈ g.blocks ∧
      g.owner (p * pageSize) = .program := by
  obtain ⟨piece, owned⟩ := (inv.live a n).mp inLive
  rcases piece with ⟨p, k, e, block, rfl, rfl⟩ | ⟨l, chunk, rfl⟩
  · obtain ⟨code, page, -⟩ := (inv.heap.inv.described _ block).used rfl
    refine ⟨p, k, rfl, rfl, code, ?_, owned⟩
    simp only at page
    rw [page]
    exact block
  · obtain ⟨-, small, code⟩ := (inv.heap.inv.described _ chunk.1).small rfl
    simp only at code
    rw [code] at big'
    exact absurd small big'

/-- The pages that a step asks `valloc` for. -/
def Pc.asks : Pc → ℕ
  | .refill _ (_ + 1) _ => 1
  | _ => 0

/-- The pages that a call asks `valloc` for. -/
def Call.asks : Call τ → ℕ
  | .malloc bytes => if 0 ≤ sizeClass bytes then 0 else pagesFor bytes.toNat
  | _ => 0

/-- The invariant holds after a step, a thread waits only for a lock that another one has, and only a
`valloc` of `n` pages stops a step, at the page table. -/
def Sound (Q : Tally) (os : ℕ → Bool) (s : State τ) (t : τ) (n : ℕ) : Outcome τ → Prop
  | .next s' => ∃ g, SysInv Q s' g
  | .wait => s.pc t = .idle ∨ ∃ l u, s.lock l = some u ∧ u ≠ t ∧ (s.pc t).cls = some l
  | .stop => 0 < n ∧ Obstructed os s.shared.heap (n + perTable)

variable [DecidableEq τ]

theorem SysInv.release (inv : SysInv Q s g) {k : Caller} (at' : s.pc t = .release l k) (n : ℕ) :
    Sound Q os s t n (advance os s t) := by
  have small : l < numSmall := inv.inClass t l (by rw [at']; rfl)
  have shelves := (inv.classes l small).shelves
  simp only [advance, at']
  by_cases more : s.shared.freechunks l ≠ 0 ∧ (s.shared.heap.desc (s.shared.freechunks l)).count < 0
  · rw [if_pos more]
    exact inv.unlink at' rfl more.1 more.2
  · rw [if_neg more]
    refine inv.finish at' fun p member count => more ?_
    -- the pages are sorted, so that the first one has the smallest count
    have sorted := shelves.sorted t (by rw [at']; rfl)
    have chain := shelves.shelf.pages
    cases pages : g.pages l with
    | nil =>
        rw [pages] at member
        cases member
    | cons first rest =>
        rw [pages] at member sorted chain
        obtain ⟨start, real, -⟩ := pageChain_cons.mp chain
        rw [start]
        refine ⟨real, ?_⟩
        rcases List.mem_cons.mp member with rfl | later
        · omega
        · have := (List.pairwise_cons.mp sorted).1 p later
          omega

theorem SysInv.refillStep (inv : SysInv Q s g) (grants : Grants os) {want fl : ℕ}
    (at' : s.pc t = .refill l (want + 1) fl) : Sound Q os s t 1 (advance os s t) := by
  simp only [advance, at']
  by_cases none : s.shared.freechunks l = 0
  · simp only [if_pos none]
    have one : (pageSize + pageSize - 1) / pageSize = 1 := by decide
    rcases inv.heap.valloc grants one (by decide) (by decide) with
      ⟨call, -⟩ | ⟨p, e, h, T, call, real, vallocated, -⟩ | ⟨call, why⟩
    · simp only [call, if_true]
      exact inv.refused at' none
    · simp only [call, if_neg real]
      exact inv.vallocPage at' none vallocated
    · simp only [call]
      exact ⟨Nat.one_pos, why⟩
  · obtain ⟨new, m, call, inv'⟩ := inv.take at' none
    simp only [if_neg none, call]
    exact inv'

theorem SysInv.advance (inv : SysInv Q s g) (grants : Grants os) (t : τ) :
    Sound Q os s t (s.pc t).asks (advance os s t) := by
  have cls := inv.inClass t
  cases at' : s.pc t with
  | idle =>
      simp only [Malloc.advance, at']
      exact Or.inl at'
  | lockRefill l =>
      simp only [Malloc.advance, at']
      cases locked : s.lock l with
      | none => exact inv.lockRefill at' locked
      | some u =>
          refine Or.inr ⟨l, u, locked, ?_, by rw [at']; rfl⟩
          rintro rfl
          have := ((inv.classes l (cls l (by rw [at']; rfl))).lock u).mp locked
          rw [at'] at this
          cases this
  | refill l want fl =>
      cases want with
      | zero =>
          simp only [Malloc.advance, at']
          exact inv.refilled at'
      | succ want => exact inv.refillStep grants at'
  | fresh l want fl pn =>
      simp only [Malloc.advance, at']
      exact inv.newPage at'
  | lockFlush l cp cp2 k =>
      simp only [Malloc.advance, at']
      cases locked : s.lock l with
      | none => exact inv.lockFlush at' locked
      | some u =>
          refine Or.inr ⟨l, u, locked, ?_, by rw [at']; rfl⟩
          rintro rfl
          have := ((inv.classes l (cls l (by rw [at']; rfl))).lock u).mp locked
          rw [at'] at this
          cases this
  | flush l cp cp2 k =>
      simp only [Malloc.advance, at']
      by_cases last : cp = 0
      · subst last
        obtain ⟨m, call, inv'⟩ := inv.sort at'
        simp only [if_true, call]
        exact inv'
      · simp only [if_neg last]
        exact inv.put at' last
  | release l k => exact inv.release at' _
  | freePage l pn k =>
      obtain ⟨h, call, inv'⟩ := inv.freePage os at'
      simp only [Malloc.advance, at', call]
      exact inv'
  | fini l =>
      simp only [Malloc.advance, at']
      by_cases small : l < numSmall
      · obtain ⟨flush, skip⟩ := inv.fini at' small
        simp only [if_pos small]
        by_cases some : (s.lists t l).aux ≠ 0 ∨ (s.lists t l).free ≠ 0
        · rw [if_pos some]
          exact flush
        · rw [if_neg some]
          rw [not_or, not_not, not_not] at some
          exact skip some.1 some.2
      · simp only [if_neg small]
        exact inv.jump (by rw [at']; rfl) (Or.inl rfl)

theorem SysInv.callFree {old : ℕ} (inv : SysInv Q s g) (idle : s.pc t = .idle)
    (allowed : Allowed s t (.free old)) : Sound Q os s t 0 (call os s t (.free old)) := by
  simp only [call]
  by_cases null : old = 0
  · subst null
    have all : s.live.filter (·.1 ≠ 0) = s.live := by
      refine List.filter_eq_self.mpr ?_
      rintro ⟨a, n⟩ inLive
      simp only [ne_eq, decide_eq_true_eq]
      rintro rfl
      exact absurd (((inv.live 0 n).mp inLive).1.behind inv.heap.inv) (by decide)
    rw [if_pos rfl, all]
    exact ⟨g, inv⟩
  · obtain ⟨n, inLive, exact⟩ := allowed.resolve_left null
    rw [if_neg null]
    by_cases small : (s.shared.heap.desc (old / pageSize)).code < numSmall
    · rw [if_pos small]
      obtain ⟨chunk, owned⟩ := inv.freed inLive small
      exact inv.freeChunk idle small chunk owned
    · obtain ⟨p, k, rfl, rfl, code, block, owned⟩ := inv.extent inLive small
      rw [page_of] at small exact ⊢
      rw [if_neg small, if_pos ⟨code, Nat.mul_mod_left _ _⟩]
      rw [exact code, page_of] at block
      obtain ⟨h, call, inv'⟩ := inv.freeBig (t := t) os idle block owned
      simp only [call]
      exact inv'

theorem SysInv.callMalloc {bytes : Word} (inv : SysInv Q s g) (grants : Grants os)
    (idle : s.pc t = .idle) (allowed : Allowed s t (.malloc bytes)) :
    Sound Q os s t (Call.malloc bytes : Call τ).asks (call os s t (.malloc bytes)) := by
  simp only [call, Call.asks]
  by_cases small : 0 ≤ sizeClass bytes
  · simp only [if_pos small]
    exact inv.mallocSmall (sizeClass_lt small) idle
  · simp only [if_neg small]
    have positive : 0 < pagesFor bytes.toNat :=
      Nat.div_pos (by have := allowed.1; omega) (by decide)
    rcases inv.heap.valloc grants rfl positive allowed.2 with
      ⟨call, -⟩ | ⟨p, e, h, T, call, real, vallocated, -⟩ | ⟨call, why⟩
    · simp only [call, if_true]
      exact ⟨g, inv⟩
    · simp only [call, if_neg real]
      exact inv.mallocBig idle vallocated
    · simp only [call]
      exact ⟨positive, why⟩

/-- Whether a tally goes on in a forked thread, which has the counters of its parent and no chunks. -/
def Tally.Inherited (Q : Tally) : Prop := ∀ {c t n m : ℕ}, Q.holds c t n m → Q.holds c t 0 0

theorem SysInv.call {c : Call τ} (inv : SysInv Q s g) (grants : Grants os) (idle : s.pc t = .idle)
    (forks : ∀ child, c = .fork child → Q.Inherited) (allowed : Allowed s t c) :
    Sound Q os s t c.asks (call os s t c) := by
  cases c with
  | malloc bytes => exact inv.callMalloc grants idle allowed
  | free old => exact inv.callFree idle allowed
  | fini => exact inv.jump (by rw [idle]; rfl) (Or.inr ⟨0, rfl⟩)
  | fork child =>
      obtain ⟨-, idle', empty⟩ := allowed
      refine ⟨g, inv.fork idle' empty fun l small => ?_⟩
      have tally := ((inv.classes l small).holding t).counted.out (by rw [idle]; rfl)
      exact forks child rfl tally

theorem Reachable.inv {uses : Call τ → Prop} (forks : ∀ child, uses (.fork child) → Q.Inherited)
    (reach : Reachable uses s) : ∃ g, SysInv Q s g := by
  induction reach with
  | init => exact ⟨_, sysInv_init⟩
  | @call os s s' t c _ grants idle use allowed step ih =>
      obtain ⟨g, inv⟩ := ih
      have sound := inv.call grants idle (fun child same => forks child (same ▸ use)) allowed
      rw [step] at sound
      exact sound
  | @step os s s' t _ grants step ih =>
      obtain ⟨g, inv⟩ := ih
      have sound := inv.advance grants t
      rw [step] at sound
      exact sound
  | write _ inLive above below ih =>
      obtain ⟨g, inv⟩ := ih
      exact ⟨g, inv.write inLive above below⟩

end Elcrq.Malloc
