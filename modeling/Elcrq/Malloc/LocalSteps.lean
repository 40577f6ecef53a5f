import Elcrq.Malloc.PrivateSteps

/-! # The steps of `malloc_small`, `free` and `shm_fini` on the local lists -/

set_option autoImplicit false

namespace Elcrq.Malloc

open Elcrq.Store

universe u

variable {τ : Type u} [DecidableEq τ] {Q : Tally} {s s' : State τ} {g : Ghost τ} {t : τ} {l a : ℕ}

theorem set2_same {α : Type} (f : τ → ℕ → α) (t : τ) (l : ℕ) : set2 f t l (f t l) = f := by
  simp [set2]

/-- `malloc_small`, up to the lock. -/
theorem SysInv.mallocSmall (inv : SysInv Q s g) (small : l < numSmall) (idle : s.pc t = .idle) :
    ∃ g', SysInv Q (s.mallocSmall t l) g' := by
  have rests := inv.resting small idle
  have tally := ((inv.classes l small).holding t).counted.out (by rw [idle]; rfl)
  rw [State.mallocSmall]
  by_cases some : (s.lists t l).free ≠ 0
  · simp only [if_pos some]
    exact inv.pop small idle some
  · have free : (s.lists t l).free = 0 := not_not.mp some
    have noCache : g.cache t l = [] := Chain.eq_nil (free ▸ rests.1)
    rw [noCache, List.length_nil] at tally
    by_cases someAux : (s.lists t l).aux ≠ 0
    · simp only [if_neg some, if_pos someAux]
      have someSpare : 0 < (g.spare t l).length := by
        obtain ⟨rest, parts⟩ := rests.2.1.head_mem someAux
        rw [parts]
        exact Nat.succ_pos _
      have inv' : SysInv Q (s.setLists t l { s.lists t l with
          free := (s.lists t l).aux, aux := 0, count := (s.lists t l).target })
          (g.setLists t l (g.spare t l) [] []) := inv.relist .idle (g.spare t l) [] [] small rfl rfl
        (by rw [← idle, Function.update_eq_self]; rfl) rfl rfl (by simp [idle, Pc.cls]) (by simp [Pc.cls]) (fun k _ => rfl)
        (iff_of_false (inv.not_locked small (by rw [idle]; rfl)) (by simp [Pc.holds]))
        (fun u _ => Iff.rfl) (.of_tally (Q.swap someSpare tally) (by simp [Pc.behalf]))
        ⟨rests.2.1, rfl, rfl⟩ (by simp [noCache, rests.2.2]) (by simp [idle, Pc.flushes])
        (by simp [idle, Pc.takes]) rfl (by simp) (by rw [idle]; rfl)
      exact inv'.pop small idle (by simpa [State.setLists] using someAux)
    · have aux : (s.lists t l).aux = 0 := not_not.mp someAux
      have noSpare : g.spare t l = [] := Chain.eq_nil (aux ▸ rests.2.1)
      rw [noSpare, List.length_nil] at tally
      have counted : Q.holds (s.lists t l).count
          (if (s.lists t l).target = 0 then target l else (s.lists t l).target) 0 0 := by
        split_ifs with zero
        · rw [zero] at tally
          exact Q.first small tally
        · exact tally
      simp only [if_neg some, if_neg someAux]
      refine ⟨_, inv.relist (.lockRefill l) [] [] [] small rfl rfl rfl rfl rfl (by simp [idle, Pc.cls])
        (fun k other same => other (Option.some.inj same).symm) (fun k _ => rfl)
        (iff_of_false (inv.not_locked small (by rw [idle]; rfl)) (by simp [Pc.holds]))
        (fun u _ => Iff.rfl) (.of_tally counted (by simp [Pc.behalf])) ?_
        (by simp [noCache, noSpare, rests.2.2]) (by simp [idle, Pc.flushes])
        (by simp [idle, Pc.takes]) rfl (by simp) (by rw [idle]; rfl)⟩
      simp only [Local, if_true]
      refine ⟨free, aux, rfl, rfl, rfl, by simp, ?_⟩
      simp only
      split_ifs with none
      · exact target_pos l
      · exact Nat.pos_of_ne_zero none

theorem SysInv.lockRefill (inv : SysInv Q s g) (at' : s.pc t = .lockRefill l) (open' : s.lock l = none) :
    ∃ g', SysInv Q ((s.setLock l (some t)).setPc t (.refill l (s.lists t l).target 0)) g' := by
  have small : l < numSmall := inv.inClass t l (by rw [at']; rfl)
  have is := ((inv.classes l small).holding t).lists
  rw [at'] at is
  simp only [Local, if_true] at is
  refine ⟨_, inv.relist (f := s.lists t l) (.refill l (s.lists t l).target 0) (g.cache t l)
    (g.spare t l) (g.moving t l) small rfl (set2_same _ _ _).symm rfl rfl rfl ?_ ?_
    (fun k other => Function.update_of_ne other _ _) ?_ (fun u other => ?_)
    (((inv.classes l small).holding t).counted.congr (by rw [at']; rfl)) (by simpa [Local] using is)
    (List.Perm.refl _) (by simp [at', Pc.flushes]) (by simp [at', Pc.takes]) rfl (by simp) (by rw [at']; rfl)⟩
  · exact fun k other same => other (by rw [at'] at same; exact (Option.some.inj same).symm)
  · exact fun k other same => other (Option.some.inj same).symm
  · simp [State.setPc, State.setLock, Pc.holds]
  · simp only [State.setPc, State.setLock, Function.update_self, open']
    exact iff_of_false (fun same => other (Option.some.inj same).symm) (by simp)

theorem SysInv.refilled {fl : ℕ} (inv : SysInv Q s g) (at' : s.pc t = .refill l 0 fl) :
    ∃ g', SysInv Q ((((s.setLists t l { s.lists t l with
      free := fl, count := (s.lists t l).target }).setLock l none).setPc t .idle).pop t l) g' := by
  have small : l < numSmall := inv.inClass t l (by rw [at']; rfl)
  have is := ((inv.classes l small).holding t).lists
  rw [at'] at is
  simp only [Local, if_true] at is
  obtain ⟨-, aux, noCache, noSpare, chain, all, positive⟩ := is
  have locked : s.lock l = some t := ((inv.classes l small).lock t).mpr (by rw [at']; rfl)
  have tally := ((inv.classes l small).holding t).counted.out (by rw [at']; rfl)
  rw [noCache, noSpare, List.length_nil] at tally
  have counted : Q.holds (s.lists t l).target (s.lists t l).target (g.moving t l).length 0 := by
    rw [show (g.moving t l).length = (s.lists t l).target from all]
    exact Q.refill positive tally
  have inv' : SysInv Q (((s.setLists t l { s.lists t l with
      free := fl, count := (s.lists t l).target }).setLock l none).setPc t .idle)
      (g.setLists t l (g.moving t l) [] []) := inv.relist .idle (g.moving t l) [] [] small rfl rfl rfl rfl rfl
    (fun k other same => other (by rw [at'] at same; exact (Option.some.inj same).symm))
    (by simp [Pc.cls]) (fun k other => Function.update_of_ne other _ _)
    (by simp [State.setPc, State.setLock, Pc.holds]) (fun u other => ?_)
    (.of_tally counted (by simp [Pc.behalf])) ⟨chain, aux, rfl⟩
    (by simp [noCache, noSpare]) (by simp [at', Pc.flushes]) (by simp [at', Pc.takes]) rfl (by simp)
    (by rw [at']; rfl)
  · refine inv'.pop small (by simp [State.setPc]) ?_
    have notNull : fl ≠ 0 := by
      rintro rfl
      rw [chain.eq_nil] at all
      simp only [List.length_nil] at all
      omega
    simpa [State.setPc, State.setLock, State.setLists] using notNull
  · simp only [State.setPc, State.setLock, Function.update_self, locked]
    exact iff_of_false (by simp) (fun same => other (Option.some.inj same).symm)

/-- A chunk comes from the program to the front of the first list, which may have been emptied into the
second one before. -/
theorem SysInv.push (inv : SysInv Q s g) (idle : s.pc t = .idle) (small : l < numSmall)
    (chunk : IsChunk g.blocks l a) (owned : g.owner a = .program) {f : LocalFree}
    {cache spare : List ℕ} (chain : Chain s.shared.next 0 f.free cache)
    (chain' : Chain s.shared.next 0 f.aux spare)
    (tally : Q.holds ((f.count + 1) % 2 ^ 16) f.target (cache.length + 1) spare.length)
    (perm : (cache ++ spare).Perm (g.cache t l ++ g.spare t l)) :
    ∃ g', SysInv Q (({ s with live := s.live.filter (·.1 ≠ a) }.setLists t l f).push t l a) g' := by
  have holding := (inv.classes l small).holding t
  have rests := inv.resting small idle
  have real := chunk.ne_zero inv.heap.inv
  have absent : a ∉ g.cache t l ++ g.spare t l := by
    intro member
    have := (holding.owned (a := a) (by rw [rests.2.2, List.append_nil]; exact member)).2
    rw [owned] at this
    cases this
  have absent' : a ∉ cache ++ spare := fun member => absent (perm.mem_iff.mp member)
  obtain ⟨filtered, nodup⟩ := inv.live_filter a
  have state : ({ s with live := s.live.filter (·.1 ≠ a) }.setLists t l f).push t l a =
      { s with
        shared := s.shared.setNext a f.free
        lists := set2 s.lists t l { f with free := a, count := (f.count + 1) % 2 ^ 16 }
        live := s.live.filter (·.1 ≠ a) } := by
    simp [State.push, State.setLists, set2]
  rw [state]
  refine ⟨_, inv.transfer (.thread t) .idle (a :: cache) spare [] small chunk (Or.inr owned)
    (Or.inl rfl) rfl rfl (fun b => ?_) rfl (by rw [← idle, Function.update_eq_self]) (fun b n => ?_) nodup
    rfl (by simp [idle, Pc.cls]) (by simp [Pc.cls]) (fun k _ => rfl)
    (iff_of_false (inv.not_locked small (by rw [idle]; rfl)) (by simp [Pc.holds])) (fun u _ => Iff.rfl)
    (.of_tally tally (by simp [Pc.behalf])) ⟨?_, ?_, rfl⟩ ?_ (fun b => ?_) (by simp [idle, Pc.flushes])
    (by simp [idle, Pc.takes]) rfl (by simp) (by rw [idle]; rfl)⟩
  · by_cases same : b = a
    · exact Or.inr ⟨same, rfl⟩
    · exact Or.inl (Function.update_of_ne same _ _)
  · exact (filtered b n).trans (by simp)
  · exact chain.push real fun member => absent' (List.mem_append_left _ member)
  · exact chain'.update fun member => absent' (List.mem_append_right _ member)
  · rw [List.append_nil, List.cons_append, List.nodup_cons]
    have old := holding.nodup
    rw [rests.2.2, List.append_nil] at old
    exact ⟨absent', perm.nodup_iff.mpr old⟩
  · rw [List.append_nil, List.cons_append, List.mem_cons, rests.2.2, List.append_nil, perm.mem_iff]
    by_cases same : b = a
    · simp [same]
    · simp [same]

/-- `free` for a chunk, up to the lock. -/
theorem SysInv.freeChunk (inv : SysInv Q s g) (idle : s.pc t = .idle) (small : l < numSmall)
    (chunk : IsChunk g.blocks l a) (owned : g.owner a = .program) :
    ∃ g', SysInv Q ({ s with live := s.live.filter (·.1 ≠ a) }.freeChunk t l a) g' := by
  have rests := inv.resting small idle
  have holding := (inv.classes l small).holding t
  have tally := holding.counted.out (by rw [idle]; rfl)
  rw [State.freeChunk]
  by_cases enough : (s.lists t l).count = (s.lists t l).target
  · simp only [if_pos enough]
    by_cases someAux : (s.lists t l).aux ≠ 0
    · simp only [if_pos someAux]
      obtain ⟨filtered, nodup⟩ := inv.live_filter a
      have absent : a ∉ g.cache t l ++ g.spare t l := by
        intro member
        have := (holding.owned (a := a) (by rw [rests.2.2, List.append_nil]; exact member)).2
        rw [owned] at this
        cases this
      have old := holding.nodup
      rw [rests.2.2, List.append_nil] at old
      refine ⟨_, inv.transfer (.thread t) (.lockFlush l (s.lists t l).aux 0 (.free a)) (g.cache t l) []
        (a :: g.spare t l) small chunk (Or.inr owned) (Or.inl rfl) rfl rfl (fun b => Or.inl rfl) rfl rfl
        (fun b n => ?_) nodup rfl (by simp [idle, Pc.cls])
        (fun k other same => other (Option.some.inj same).symm) (fun k _ => rfl)
        (iff_of_false (inv.not_locked small (by rw [idle]; rfl)) (by simp [Pc.holds]))
        (fun u _ => Iff.rfl) ⟨⟨_, _, tally⟩, fun _ => Q.drop tally, fun _ _ => enough⟩ ?_ ?_
        (fun b => ?_) (by simp [idle, Pc.flushes]) (by simp [idle, Pc.takes]) rfl (by simp) (by rw [idle]; rfl)⟩
      · exact (filtered b n).trans (by simp)
      · simp only [Local, if_true]
        exact ⟨⟨rests.1, rfl, rfl⟩, g.spare t l, [], rests.2.1, rfl, by simp [Caller.hand]⟩
      · rw [List.nil_append]
        exact (List.perm_middle.nodup_iff).mpr (List.nodup_cons.mpr ⟨absent, old⟩)
      · rw [List.nil_append, List.perm_middle.mem_iff, List.mem_cons, rests.2.2, List.append_nil]
        by_cases same : b = a
        · simp [same]
        · simp [same]
    · simp only [if_neg someAux]
      have aux : (s.lists t l).aux = 0 := not_not.mp someAux
      have noSpare : g.spare t l = [] := Chain.eq_nil (aux ▸ rests.2.1)
      rw [noSpare, enough] at tally
      exact inv.push idle small chunk owned (show Chain _ 0 0 [] from rfl) rests.1
        (Q.rotate tally) (by simp [noSpare])
  · simp only [if_neg enough]
    have same : { s with live := s.live.filter (·.1 ≠ a) } =
        { s with live := s.live.filter (·.1 ≠ a) }.setLists t l (s.lists t l) := by
      simp [State.setLists]
    rw [same]
    exact inv.push idle small chunk owned rests.1 rests.2.1 (Q.push enough tally) (List.Perm.refl _)

theorem SysInv.lockFlush {cp cp2 : ℕ} {k : Caller} (inv : SysInv Q s g)
    (at' : s.pc t = .lockFlush l cp cp2 k) (open' : s.lock l = none) :
    ∃ g', SysInv Q ((s.setLock l (some t)).setPc t
      (if cp = 0 then .flush l cp2 0 k else .flush l cp cp2 k)) g' := by
  have small : l < numSmall := inv.inClass t l (by rw [at']; rfl)
  have is := ((inv.classes l small).holding t).lists
  rw [at'] at is
  simp only [Local, if_true] at is
  obtain ⟨kept, first, second, chain, chain', parts⟩ := is
  have isFlush : ∃ c c2, (if cp = 0 then Pc.flush l cp2 0 k else .flush l cp cp2 k) = .flush l c c2 k ∧
      Flushing s.shared.next (s.lists t l) (g.cache t l) (g.spare t l) (g.moving t l) c c2 k ∧
      (c = 0 → c2 = 0) := by
    by_cases none : cp = 0
    · subst none
      have noFirst := chain.eq_nil
      subst noFirst
      exact ⟨cp2, 0, if_pos rfl, ⟨kept, second, [], chain', rfl, by simpa using parts⟩, fun _ => rfl⟩
    · exact ⟨cp, cp2, if_neg none, ⟨kept, first, second, chain, chain', parts⟩,
        fun zero => absurd zero none⟩
  obtain ⟨c, c2, pc, flushing, order⟩ := isFlush
  rw [pc]
  refine ⟨_, inv.relist (f := s.lists t l) (.flush l c c2 k) (g.cache t l) (g.spare t l)
    (g.moving t l) small rfl (set2_same _ _ _).symm rfl rfl rfl ?_ ?_
    (fun k other => Function.update_of_ne other _ _) ?_ (fun u other => ?_)
    (((inv.classes l small).holding t).counted.congr (by rw [at']; rfl)) ?_
    (List.Perm.refl _) (fun _ _ => rfl) (by simp [at', Pc.takes]) rfl (by simp) (by rw [at']; rfl)⟩
  · exact fun k other same => other (by rw [at'] at same; exact (Option.some.inj same).symm)
  · exact fun k other same => other (Option.some.inj same).symm
  · simp [State.setPc, State.setLock, Pc.holds]
  · simp only [State.setPc, State.setLock, Function.update_self, open']
    exact iff_of_false (fun same => other (Option.some.inj same).symm) (by simp)
  · simp only [Local, if_true]
    exact ⟨flushing, order⟩

/-- The end of a flush, with no page of free chunks only left on the list. -/
theorem SysInv.finish {k : Caller} (inv : SysInv Q s g) (at' : s.pc t = .release l k)
    (unfull : ∀ p ∈ g.pages l, (s.shared.heap.desc p).count ≠ -1) :
    ∃ g', SysInv Q ((s.setLock l none).finish t l k) g' := by
  have small : l < numSmall := inv.inClass t l (by rw [at']; rfl)
  have holding := (inv.classes l small).holding t
  have is := holding.lists
  have counted := holding.counted
  rw [at'] at is counted
  simp only [Local, if_true] at is
  obtain ⟨kept, hand⟩ := is
  have locked : s.lock l = some t := ((inv.classes l small).lock t).mpr (by rw [at']; rfl)
  have cls : ∀ k, k ≠ l → (s.pc t).cls ≠ some k := fun k other same =>
    other (by rw [at'] at same; exact (Option.some.inj same).symm)
  have unmarked : (∃ p ∈ g.pages l, (s.shared.heap.desc p).count = -1) → False := by
    rintro ⟨p, member, count⟩
    exact unfull p member count
  have takes : (s.pc t).takes ≠ some l := by rw [at']; simp [Pc.takes]
  have released : ∀ u, u ≠ t → (Function.update s.lock l none l = some u ↔ s.lock l = some u) := by
    intro u other
    rw [Function.update_self, locked]
    exact iff_of_false (by simp) (fun same => other (Option.some.inj same).symm)
  cases k with
  | free old =>
      obtain ⟨chain, aux, noSpare⟩ := kept
      have parts : g.cache t l ++ (g.spare t l ++ g.moving t l) = g.cache t l ++ [old] := by
        rw [noSpare, hand]
        rfl
      have nodup := holding.nodup
      rw [parts] at nodup
      obtain ⟨chunk, owned⟩ := holding.owned (a := old) (by rw [parts]; simp)
      have absent : old ∉ g.cache t l := fun member =>
        (List.nodup_append.mp nodup).2.2 old member old (by simp) rfl
      have notLive := inv.notMem_live owned
      have tally := counted.tally (by simp [Pc.behalf])
      rw [counted.full old rfl, noSpare] at tally
      have state : (s.setLock l none).finish t l (.free old) =
          { s with
            shared := s.shared.setNext old 0
            lock := Function.update s.lock l none
            lists := set2 s.lists t l { s.lists t l with
              free := old, aux := (s.lists t l).free, count := 1 % 2 ^ 16 }
            pc := Function.update s.pc t .idle } := by
        simp [State.finish, State.rotate, State.push, State.setLists, State.setLock, State.setPc, set2]
      rw [state]
      refine ⟨_, inv.transfer (.thread t) .idle [old] (g.cache t l) [] small chunk (Or.inl owned)
        (Or.inl rfl) rfl rfl (fun b => ?_) rfl rfl (fun b n => ?_) inv.nodup rfl cls (by simp [Pc.cls])
        (fun k other => Function.update_of_ne other _ _) ?_ released
        (.of_tally (Q.rotate tally) (by simp [Pc.behalf])) ⟨?_, ?_, rfl⟩ ?_ (fun b => ?_)
        (fun some => (unmarked some).elim) (fun _ taking => absurd taking takes) rfl (by simp)
        (by rw [at']; rfl)⟩
      · by_cases same : b = old
        · exact Or.inr ⟨same, rfl⟩
        · exact Or.inl (Function.update_of_ne same _ _)
      · simp only [reduceCtorEq, and_false, or_false]
        refine ⟨fun inLive => ⟨?_, inLive⟩, And.right⟩
        rintro rfl
        exact notLive (List.mem_map_of_mem (f := Prod.fst) inLive)
      · simp [Pc.holds]
      · exact ⟨rfl, chunk.ne_zero inv.heap.inv, Function.update_self _ _ _⟩
      · exact chain.update absent
      · simpa using ⟨absent, (List.nodup_append.mp nodup).1⟩
      · rw [parts]
        by_cases same : b = old
        · simp [same]
        · simp [same]
  | fini =>
      obtain ⟨noCache, noSpare⟩ := kept
      have noMoving : g.moving t l = [] := hand
      obtain ⟨n, m, tally⟩ := counted.once
      refine ⟨_, inv.relist (f := ⟨0, 0, 0, (s.lists t l).target⟩) (.fini (l + 1)) [] [] [] small rfl rfl
        rfl rfl rfl cls (by simp [Pc.cls]) (fun k other => Function.update_of_ne other _ _) ?_ released
        (.of_tally (Q.clear tally) (by simp [Pc.behalf])) ⟨rfl, rfl, rfl⟩ ?_
        (fun some => (unmarked some).elim) (fun _ taking => absurd taking takes) rfl (by simp)
        (by rw [at']; rfl)⟩
      · simp [State.finish, State.setLists, State.setLock, State.setPc, Pc.holds]
      · simp [noCache, noSpare, noMoving]

theorem SysInv.fini (inv : SysInv Q s g) (at' : s.pc t = .fini l) (small : l < numSmall) :
    (∃ g', SysInv Q (s.setPc t (.lockFlush l (s.lists t l).free (s.lists t l).aux .fini)) g') ∧
      ((s.lists t l).aux = 0 → (s.lists t l).free = 0 →
        ∃ g', SysInv Q ((s.setLists t l { s.lists t l with
          free := 0, aux := 0, count := 0 }).setPc t (.fini (l + 1))) g') := by
  have is := ((inv.classes l small).holding t).lists
  have tally := ((inv.classes l small).holding t).counted.out (by rw [at']; rfl)
  rw [at'] at is
  obtain ⟨chain, chain', noMoving⟩ := is
  have cls : ∀ k, k ≠ l → (s.pc t).cls ≠ some k := by simp [at', Pc.cls]
  have unlocked := inv.not_locked (t := t) small (by rw [at']; rfl)
  refine ⟨⟨_, inv.relist (f := s.lists t l) (.lockFlush l (s.lists t l).free (s.lists t l).aux .fini) []
    [] (g.cache t l ++ g.spare t l) small rfl (set2_same _ _ _).symm rfl rfl rfl cls
    (fun k other same => other (Option.some.inj same).symm) (fun k _ => rfl)
    (iff_of_false unlocked (by simp [Pc.holds])) (fun u _ => Iff.rfl)
    ⟨⟨_, _, tally⟩, fun out => absurd rfl out, by simp [Pc.behalf]⟩ ?_ (by simp [noMoving])
    (by simp [at', Pc.flushes]) (by simp [at', Pc.takes]) rfl (by simp) (by rw [at']; rfl)⟩, fun aux free => ?_⟩
  · simp only [Local, if_true]
    exact ⟨⟨rfl, rfl⟩, g.cache t l, g.spare t l, chain, chain', rfl⟩
  · have noCache : g.cache t l = [] := Chain.eq_nil (free ▸ chain)
    have noSpare : g.spare t l = [] := Chain.eq_nil (aux ▸ chain')
    exact ⟨_, inv.relist (f := ⟨0, 0, 0, (s.lists t l).target⟩) (.fini (l + 1)) [] [] [] small rfl rfl rfl
      rfl rfl cls (by simp [Pc.cls]) (fun k _ => rfl) (iff_of_false unlocked (by simp [Pc.holds]))
      (fun u _ => Iff.rfl) (.of_tally (Q.clear tally) (by simp [Pc.behalf])) ⟨rfl, rfl, rfl⟩
      (by simp [noCache, noSpare, noMoving])
      (by simp [at', Pc.flushes]) (by simp [at', Pc.takes]) rfl (by simp) (by rw [at']; rfl)⟩

theorem SysInv.jump {pc : Pc} (inv : SysInv Q s g) (cls : (s.pc t).cls = none)
    (rests : pc = .idle ∨ ∃ k, pc = .fini k) : ∃ g', SysInv Q (s.setPc t pc) g' := by
  have small : 0 < numSmall := by decide
  have is := ((inv.classes 0 small).holding t).lists
  rw [local_of_cls (by rw [cls]; simp)] at is
  have out : (s.pc t).holds = none ∧ (s.pc t).flushes = none ∧ (s.pc t).takes = none ∧
      (s.pc t).behalf = none ∧ (s.pc t).page = none := by
    cases pcT : s.pc t with
    | idle => exact ⟨rfl, rfl, rfl, rfl, rfl⟩
    | fini k => exact ⟨rfl, rfl, rfl, rfl, rfl⟩
    | _ => rw [pcT] at cls; cases cls
  have new : pc.cls = none ∧ pc.holds = none ∧ pc.releases = none ∧
      (∀ k want fl pn, pc ≠ .fresh k want fl pn) ∧ pc.behalf = none := by
    rcases rests with rfl | ⟨k, rfl⟩
    · exact ⟨rfl, rfl, rfl, by simp, rfl⟩
    · exact ⟨rfl, rfl, rfl, by simp, rfl⟩
  have is' : Local s.shared.next 0 (s.lists t 0) (g.cache t 0) (g.spare t 0) (g.moving t 0) pc := by
    rw [local_of_cls (by rw [new.1]; simp)]
    exact is
  exact ⟨_, inv.relist (f := s.lists t 0) pc (g.cache t 0) (g.spare t 0) (g.moving t 0) small rfl
    (set2_same _ _ _).symm rfl rfl rfl (by simp [cls]) (by simp [new.1]) (fun k _ => rfl)
    (iff_of_false (inv.not_locked small out.1) (by simp [new.2.1])) (fun u _ => Iff.rfl)
    (((inv.classes 0 small).holding t).counted.congr (new.2.2.2.2.trans out.2.2.2.1.symm)) is'
    (List.Perm.refl _) (by simp [out.2.1]) (by simp [out.2.2.1]) new.2.2.1 new.2.2.2.1 out.2.2.2.2⟩

/-- A refill that gets no page drops the list it has so far. -/
theorem SysInv.refused {want fl : ℕ} (inv : SysInv Q s g) (at' : s.pc t = .refill l (want + 1) fl)
    (none' : s.shared.freechunks l = 0) :
    ∃ g', SysInv Q { (s.setLock l none).setPc t .idle with lost := fl :: s.lost } g' := by
  have small : l < numSmall := inv.inClass t l (by rw [at']; rfl)
  have cls := inv.classes l small
  have holding := cls.holding t
  have is := holding.lists
  rw [at'] at is
  simp only [Local, if_true] at is
  obtain ⟨free, aux, noCache, noSpare, chain, -⟩ := is
  have noPages : g.pages l = [] := Chain.eq_nil (none' ▸ cls.shelves.shelf.pages)
  have locked : s.lock l = some t := (cls.lock t).mpr (by rw [at']; rfl)
  have moving : ∀ a, a ∈ g.moving t l ↔ IsChunk g.blocks l a ∧ g.owner a = .thread t := by
    intro a
    rw [← holding.mine a, noCache, noSpare]
    rfl
  let owner : ℕ → Owner τ := fun a => if a ∈ g.moving t l then .lost else g.owner a
  have gone : ∀ a ∈ g.moving t l, owner a = .lost := fun a member => if_pos member
  have kept : ∀ a, a ∉ g.moving t l → owner a = g.owner a := fun a absent => if_neg absent
  have notMine : ∀ a, IsChunk g.blocks l a → owner a ≠ .thread t := by
    intro a chunk owned
    by_cases member : a ∈ g.moving t l
    · rw [gone a member] at owned
      cases owned
    · exact member ((moving a).mpr ⟨chunk, (kept a member).symm.trans owned⟩)
  refine ⟨{ g.setLists t l [] [] [] with owner := owner }, inv.privateStep small (t := t)
    ⟨rfl, rfl, rfl, rfl, rfl, fun a => ?_, fun a => Or.inl rfl,
      fun u other => Function.update_of_ne other _ _, fun k other => ?_, fun u k _ => rfl,
      fun u k other => g.setLists_ghost other, fun k other => Function.update_of_ne other _ _,
      fun u => ?_, ⟨?_, ?_, ?_, fun a => ?_⟩, ?_, ?_, ?_, ?_, by rw [at']; rfl,
      fun a n => ?_, inv.nodup, fun fl member => List.mem_cons_of_mem _ member, fun fl' member => ?_,
      fun a notLost isLost => ?_⟩⟩
  · by_cases member : a ∈ g.moving t l
    · obtain ⟨chunk, owned⟩ := (moving a).mp member
      exact Or.inr ⟨chunk, Or.inl owned, Or.inr (Or.inr (gone a member))⟩
    · exact Or.inl (kept a member)
  · rw [at']
    simp only [State.setPc, Function.update_self]
    exact ⟨fun same => other (Option.some.inj same).symm, by simp [Pc.cls]⟩
  · simp only [State.setPc, State.setLock, Function.update_self]
    refine iff_of_false (by simp) fun holds => ?_
    by_cases isT : u = t
    · subst isT
      rw [Function.update_self] at holds
      cases holds
    · rw [Function.update_of_ne isT] at holds
      rw [(cls.lock u).mpr holds] at locked
      exact isT (Option.some.inj locked)
  · simp only [State.setPc, State.setLock, Function.update_self, Ghost.setLists, set2_self]
    have tally := holding.counted.out (by rw [at']; rfl)
    rw [noCache, noSpare] at tally
    exact .of_tally tally (by simp [Pc.behalf])
  · simp only [State.setPc, State.setLock, Function.update_self, Ghost.setLists, set2_self]
    exact ⟨free, aux, rfl⟩
  · simp [Ghost.setLists]
  · simp only [Ghost.setLists, set2_self, List.append_nil, List.not_mem_nil, false_iff]
    exact fun both => notMine a both.1 both.2
  · simp [noPages]
  · simp [noPages]
  · simp [State.setPc, Pc.releases]
  · simp [Page1, State.setPc]
  · refine (inv.live a n).trans (and_congr_right fun _ => ?_)
    by_cases member : a ∈ g.moving t l
    · simp only [gone a member, ((moving a).mp member).2, reduceCtorEq]
    · simp only [kept a member]
  · rcases List.mem_cons.mp member with rfl | old
    · exact Or.inr ⟨g.moving t l, chain, fun b inside => ⟨((moving b).mp inside).1, gone b inside⟩⟩
    · exact Or.inl old
  · by_cases member : a ∈ g.moving t l
    · exact ⟨fl, List.mem_cons_self, g.moving t l, chain, member,
        fun b inside => ⟨((moving b).mp inside).1, gone b inside⟩⟩
    · exact absurd ((kept a member).symm.trans isLost) notLost

theorem SysInv.fork {child : τ} (inv : SysInv Q s g) (idle : s.pc child = .idle)
    (empty : ∀ l, (s.lists child l).free = 0 ∧ (s.lists child l).aux = 0)
    (inherits : ∀ l, l < numSmall → Q.holds (s.lists t l).count (s.lists t l).target 0 0) :
    SysInv Q { s with lists := Function.update s.lists child fun l =>
      { s.lists t l with free := 0, aux := 0 } } g := by
  refine ⟨inv.heap, fun l small => ?_, inv.inClass, inv.pages, inv.live, inv.nodup, inv.used, inv.stray,
    inv.lost⟩
  have cls := inv.classes l small
  refine ⟨⟨cls.shelves.shelf, cls.shelves.block, cls.shelves.absent, cls.shelves.onPage,
    cls.shelves.marked, cls.shelves.full, cls.shelves.sorted⟩, fun u => ?_, cls.lock⟩
  by_cases isChild : u = child
  · subst isChild
    refine (cls.holding u).congr_cls (by simp [idle, Pc.cls]) (by simp [idle, Pc.cls]) ?_ ?_ ?_ rfl rfl rfl
      (fun a _ _ => rfl) fun a => Iff.rfl
    · simp [(empty l).1]
    · simp [(empty l).2]
    · have rests := inv.resting small idle
      have noCache : g.cache u l = [] := Chain.eq_nil ((empty l).1 ▸ rests.1)
      have noSpare : g.spare u l = [] := Chain.eq_nil ((empty l).2 ▸ rests.2.1)
      rw [noCache, noSpare]
      simpa using inherits l small
  · exact (cls.holding u).congr rfl (by simp [isChild]) rfl rfl rfl (fun a _ _ => rfl) fun a => Iff.rfl

end Elcrq.Malloc
