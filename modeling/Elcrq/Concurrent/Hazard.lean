import Elcrq.Concurrent.Linked
import Mathlib.Logic.Function.Basic
import Mathlib.Data.List.Nodup
import Mathlib.Data.Nat.Basic
import Mathlib.Order.Basic

/-! # A linked list under hazard pointers

Nodes are named by their construction; an address may be handed out again once
its node is destroyed.  The list grows behind its newest node, `tail` follows it
and `head` leaves nodes behind.  An agent publishes a node's address in its slot,
checks that the node still is the tail or the head, and uses the node from then
on.  Whoever moves `head` off a node retires it, and destroys retired nodes that a
scan of all slots did not find.

`head` can leave the node that `tail` still points to.  That node outlives the
scan of the agent that retired it, because that agent's own slot holds it, and
before the same agent scans again `tail` has moved on. -/

set_option autoImplicit false

namespace Elcrq.Concurrent.Hazard

inductive MemEvent
  | construct (i : ℕ)
  | retire (i : ℕ)
  | destroy (i : ℕ)
  deriving DecidableEq

def MemEvent.node : MemEvent → ℕ
  | .construct i | .retire i | .destroy i => i

/-- What an agent does with the list.  `linked i` has put a node behind `i` and still
has to move the tail; `scan` compares the slots from `tid` on with the retired node
at position `iret`, after `ptr` was retired. -/
inductive Task
  | free
  | onTail (i : ℕ)
  | linked (i : ℕ)
  | onHead (i : ℕ)
  | scan (ptr iret tid : ℕ)

def Task.guard : Task → Option ℕ
  | .onTail i | .linked i | .onHead i => some i
  | _ => none

/-- The node an agent has read from the tail. -/
def Task.fromTail : Task → Option ℕ
  | .onTail i | .linked i => some i
  | _ => none

def Task.scanFrom (ptr iret size : ℕ) : Task := if iret < size then .scan ptr iret 0 else .free

theorem Task.guard_of_fromTail {t : Task} {i : ℕ} (from' : t.fromTail = some i) :
    t.guard = some i := by
  cases t <;> first | exact from' | cases from'

@[ext]
structure Heap (n : ℕ) (A : Type) where
  addr : ℕ → A
  made : ℕ
  next : ℕ → Option ℕ
  chain : List ℕ
  head : ℕ
  tail : ℕ
  slot : ℕ → Option A
  task : Fin n → Task
  own : Fin n → Option ℕ
  retired : Fin n → List ℕ
  mem : List MemEvent

section Heap

variable {n : ℕ} {A : Type}

def Heap.Alive (h : Heap n A) (i : ℕ) : Prop := i < h.made ∧ .destroy i ∉ h.mem

def Heap.setTask (h : Heap n A) (u : Fin n) (t : Task) : Heap n A :=
  { h with task := Function.update h.task u t }

inductive Step (h h' : Heap n A) : Prop
  | publish (u : Fin n) (v : Option A) : h.task u = .free →
      h' = { h with slot := Function.update h.slot u v } → Step h h'
  | guardTail (u : Fin n) : h.task u = .free → h.slot u = some (h.addr h.tail) →
      h' = h.setTask u (.onTail h.tail) → Step h h'
  | guardHead (u : Fin n) : h.task u = .free → h.slot u = some (h.addr h.head) →
      h' = h.setTask u (.onHead h.head) → Step h h'
  | drop (u : Fin n) (i : ℕ) : h.task u = .onTail i ∨ h.task u = .onHead i →
      h' = h.setTask u .free → Step h h'
  | construct (u : Fin n) (a : A) : (∀ i, h.Alive i → h.addr i ≠ a) → h.own u = none →
      h' = { h with
        addr := Function.update h.addr h.made a
        made := h.made + 1
        own := Function.update h.own u (some h.made)
        mem := .construct h.made :: h.mem } → Step h h'
  | discard (u : Fin n) (i : ℕ) : h.own u = some i →
      h' = { h with own := Function.update h.own u none, mem := .destroy i :: h.mem } → Step h h'
  | link (u : Fin n) (i j : ℕ) (rest : List ℕ) : h.task u = .onTail i → h.own u = some j →
      h.chain = i :: rest →
      h' = { h with
        next := Function.update h.next i (some j)
        chain := j :: h.chain
        own := Function.update h.own u none
        task := Function.update h.task u (.linked i) } → Step h h'
  | advance (u : Fin n) (i j : ℕ) : (h.task u).fromTail = some i → h.next i = some j →
      h' = { h.setTask u .free with tail := if h.tail = i then j else h.tail } → Step h h'
  | unlink (u : Fin n) (j : ℕ) : h.task u = .onHead h.head → h.next h.head = some j →
      h' = { h with
        head := j
        retired := Function.update h.retired u (h.retired u ++ [h.head])
        task := Function.update h.task u (.scan h.head 0 0)
        mem := .retire h.head :: h.mem } → Step h h'
  | pass (u : Fin n) (ptr i tid obj : ℕ) : h.task u = .scan ptr i tid →
      (h.retired u)[i]? = some obj → h.slot tid ≠ some (h.addr obj) →
      h' = h.setTask u (.scan ptr i (tid + 1)) → Step h h'
  | skip (u : Fin n) (ptr i tid : ℕ) : h.task u = .scan ptr i tid →
      h' = h.setTask u (.scanFrom ptr (i + 1) (h.retired u).length) → Step h h'
  | destroy (u : Fin n) (ptr i obj : ℕ) : h.task u = .scan ptr i n →
      (h.retired u)[i]? = some obj →
      h' = { h with
        retired := Function.update h.retired u ((h.retired u).eraseIdx i)
        task := Function.update h.task u (.scanFrom ptr i ((h.retired u).eraseIdx i).length)
        mem := .destroy obj :: h.mem } → Step h h'

/-! ## The invariant -/

/-- A scan of agent `u`: its own slot holds the node it has just retired, which it
therefore finds; the tail has left the others, so that nobody can start to use
them, and the slots already seen do not guard the one looked at. -/
structure Scanning (h : Heap n A) (u : Fin n) (ptr iret tid : ℕ) : Prop where
  slot : h.slot u = some (h.addr ptr)
  latest : ptr ∈ h.retired u
  settled : ∀ i ∈ h.retired u, i = ptr ∨ Older h.chain i h.tail
  seen : ∀ i, (h.retired u)[iret]? = some i →
    (i = ptr → tid ≤ u) ∧ (i ≠ ptr → ∀ w : Fin n, w.val < tid → (h.task w).guard ≠ some i)

structure Heap.Inv (h : Heap n A) : Prop where
  nodup : h.mem.Nodup
  mem_lt : ∀ e ∈ h.mem, e.node < h.made
  inj : ∀ i j, h.Alive i → h.Alive j → h.addr i = h.addr j → i = j
  distinct : h.chain.Nodup
  linked : Linked h.next none h.chain
  next_out : ∀ i, i ∉ h.chain → h.next i = none
  chain_lt : ∀ i ∈ h.chain, i < h.made
  head_mem : h.head ∈ h.chain
  tail_mem : h.tail ∈ h.chain
  /-- Only the newest node can be newer than the tail. -/
  lag : ∀ i j, h.next i = some j → ¬ Older h.chain h.tail i
  /-- The head is at most one node ahead of the tail. -/
  passed : ∀ i, Older h.chain h.tail i → ¬ Older h.chain i h.head
  /-- A tail that lags is moved by the agent that linked the newest node. -/
  pending : ∀ j, h.next h.tail = some j → ∃ u, h.task u = .linked h.tail
  guarded : ∀ u i, (h.task u).guard = some i →
    h.slot u = some (h.addr i) ∧ .destroy i ∉ h.mem ∧ i ∈ h.chain
  behind : ∀ u i, (h.task u).fromTail = some i → ¬ Older h.chain h.tail i
  own : ∀ u i, h.own u = some i → h.Alive i ∧ i ∉ h.chain
  own_unique : ∀ u w i, h.own u = some i → h.own w = some i → u = w
  retired : ∀ u, ∀ i ∈ h.retired u, .destroy i ∉ h.mem ∧ .retire i ∈ h.mem
  retired_nodup : ∀ u, (h.retired u).Nodup
  retired_apart : ∀ u w i, i ∈ h.retired u → i ∈ h.retired w → u = w
  retire_old : ∀ i, .retire i ∈ h.mem → Older h.chain i h.head
  destroy_old : ∀ i, .destroy i ∈ h.mem → i ∈ h.chain →
    Older h.chain i h.head ∧ Older h.chain i h.tail
  scans : ∀ u ptr iret tid, h.task u = .scan ptr iret tid → Scanning h u ptr iret tid

variable {h h' : Heap n A} {u : Fin n}

theorem Heap.Inv.not_older_self (inv : h.Inv) (i : ℕ) : ¬ Older h.chain i i :=
  Older.irrefl inv.distinct

theorem Heap.Inv.alive_of_not_older (inv : h.Inv) {i : ℕ} (member : i ∈ h.chain)
    (ahead : ¬ (Older h.chain i h.head ∧ Older h.chain i h.tail)) : h.Alive i :=
  ⟨inv.chain_lt i member, fun destroyed => ahead (inv.destroy_old i destroyed member)⟩

theorem Heap.Inv.head_alive (inv : h.Inv) : h.Alive h.head :=
  inv.alive_of_not_older inv.head_mem fun older => inv.not_older_self _ older.1

theorem Heap.Inv.tail_alive (inv : h.Inv) : h.Alive h.tail :=
  inv.alive_of_not_older inv.tail_mem fun older => inv.not_older_self _ older.2

theorem Heap.Inv.next_older (inv : h.Inv) {i j : ℕ} (link : h.next i = some j) :
    Older h.chain i j ∧ ∀ k, Older h.chain k j → k = i ∨ Older h.chain k i := by
  have member : i ∈ h.chain := by
    by_contra missing
    rw [inv.next_out i missing] at link
    cases link
  rcases inv.linked.next_some inv.distinct member link with ⟨isNone, _⟩ | older
  · cases isNone
  · exact older

theorem Heap.Inv.next_alive (inv : h.Inv) {i j : ℕ} (link : h.next i = some j)
    (current : i = h.head ∨ i = h.tail) : h.Alive j := by
  have older := (inv.next_older link).1
  refine inv.alive_of_not_older older.mem_new fun left => ?_
  rcases current with rfl | rfl
  · exact inv.not_older_self _ (older.trans inv.distinct left.1)
  · exact inv.not_older_self _ (older.trans inv.distinct left.2)

theorem Heap.Inv.tail_after (inv : h.Inv) {i j k : ℕ} (link : h.next i = some j)
    (older : Older h.chain k i) : Older h.chain k h.tail := by
  rcases older_total older.mem_new inv.tail_mem with same | before | after
  · exact same ▸ older
  · exact older.trans inv.distinct before
  · exact absurd after (inv.lag i j link)

theorem Heap.Inv.retired_lt (inv : h.Inv) {i : ℕ} (member : i ∈ h.retired u) : i < h.made :=
  inv.mem_lt _ (inv.retired u i member).2

theorem Heap.Inv.next_newest (inv : h.Inv) {j : ℕ} (link : h.next h.tail = some j) :
    h.next j = none := by
  cases deeper : h.next j with
  | none => rfl
  | some k => exact absurd (inv.next_older link).1 (inv.lag j k deeper)

/-- The tail is the newest node or the one just before it. -/
theorem Heap.Inv.tail_position (inv : h.Inv) :
    (∃ rest, h.chain = h.tail :: rest) ∨ ∃ j rest, h.next h.tail = some j ∧
      h.chain = j :: h.tail :: rest := by
  cases link : h.next h.tail with
  | none => exact Or.inl (inv.linked.next_none inv.tail_mem link)
  | some j =>
      obtain ⟨older, between⟩ := inv.next_older link
      obtain ⟨rest, newest⟩ := inv.linked.next_none older.mem_new (inv.next_newest link)
      cases rest with
      | nil =>
          rw [newest] at older
          rcases older with ⟨_, member⟩ | deeper
          · cases member
          · exact deeper.elim
      | cons x rest =>
          have linked := inv.linked
          rw [newest] at linked
          obtain ⟨olderX, betweenX⟩ := inv.next_older linked.2.1
          -- both `x` and the tail come right before `j`
          have same : x = h.tail := by
            rcases between x olderX with same | before
            · exact same
            · rcases betweenX _ older with same | after
              · exact same.symm
              · exact absurd (before.trans inv.distinct after) (inv.not_older_self x)
          exact Or.inr ⟨j, rest, rfl, by rw [newest, same]⟩

/-! ## Steps of one agent that leave the list alone -/

/-- Agent `u` turns to task `t`. -/
theorem Heap.Inv.setTask {t : Task} (inv : h.Inv)
    (done : h.task u ≠ .linked h.tail)
    (guarded : ∀ i, t.guard = some i →
      h.slot u = some (h.addr i) ∧ .destroy i ∉ h.mem ∧ i ∈ h.chain)
    (current : ∀ i, t.guard = some i → i = h.tail ∨ i = h.head)
    (behind : ∀ i, t.fromTail = some i → ¬ Older h.chain h.tail i)
    (scans : ∀ ptr iret tid, t = .scan ptr iret tid → Scanning (h.setTask u t) u ptr iret tid) :
    (h.setTask u t).Inv := by
  have self : (h.setTask u t).task u = t := Function.update_self ..
  have others : ∀ w, w ≠ u → (h.setTask u t).task w = h.task w := fun w other =>
    Function.update_of_ne other ..
  refine
    { inv with
      pending := fun j link => ?_
      guarded := fun w i isGuard => ?_
      behind := fun w i isTail => ?_
      scans := fun w ptr iret tid isScan => ?_ }
  · obtain ⟨w, isLinked⟩ := inv.pending j link
    refine ⟨w, ?_⟩
    rw [others w fun same => done (same ▸ isLinked)]
    exact isLinked
  · by_cases same : w = u
    · subst same
      exact guarded i (self ▸ isGuard)
    · rw [others w same] at isGuard
      exact inv.guarded w i isGuard
  · by_cases same : w = u
    · subst same
      exact behind i (self ▸ isTail)
    · rw [others w same] at isTail
      exact inv.behind w i isTail
  · by_cases same : w = u
    · subst same
      exact scans ptr iret tid (self.symm.trans isScan)
    · rw [others w same] at isScan
      obtain ⟨slot, latest, settled, seen⟩ := inv.scans w ptr iret tid isScan
      refine ⟨slot, latest, settled, fun i at_ => ⟨(seen i at_).1, fun notPtr v before isGuard => ?_⟩⟩
      by_cases isU : v = u
      · -- what `u` has begun to use is the tail or the head, and both have left `i`
        subst isU
        have member : i ∈ h.retired w := List.mem_of_getElem? at_
        rw [self] at isGuard
        rcases current i isGuard with rfl | rfl
        · exact inv.not_older_self _ ((settled _ member).resolve_left notPtr)
        · exact inv.not_older_self _ (inv.retire_old _ (inv.retired w _ member).2)
      · rw [others v isU] at isGuard
        exact (seen i at_).2 notPtr v before isGuard

theorem Heap.Inv.publish (inv : h.Inv) (v : Option A) (free : h.task u = .free) :
    Heap.Inv { h with slot := Function.update h.slot u v } := by
  have others : ∀ w : Fin n, h.task w ≠ .free → Function.update h.slot u v w = h.slot w := by
    intro w busy
    refine Function.update_of_ne (fun same => busy ?_) ..
    rw [Fin.ext same]
    exact free
  refine
    { inv with
      guarded := fun w i isGuard => ?_
      scans := fun w ptr iret tid isScan => ?_ }
  · have busy : h.task w ≠ .free := fun isFree => by
      rw [show (h.task w).guard = none by rw [isFree]; rfl] at isGuard
      cases isGuard
    refine ⟨?_, (inv.guarded w i isGuard).2⟩
    show Function.update h.slot u v w = _
    rw [others w busy]
    exact (inv.guarded w i isGuard).1
  · have isScan' : h.task w = .scan ptr iret tid := isScan
    obtain ⟨slot, latest, settled, seen⟩ := inv.scans w ptr iret tid isScan'
    refine ⟨?_, latest, settled, seen⟩
    show Function.update h.slot u v w = _
    rw [others w (by rw [isScan']; nofun)]
    exact slot

theorem Heap.Inv.guardTail (inv : h.Inv) (free : h.task u = .free)
    (published : h.slot u = some (h.addr h.tail)) : (h.setTask u (.onTail h.tail)).Inv := by
  refine inv.setTask ?_ (fun i isGuard => ?_) (fun i isGuard => ?_) (fun i isTail => ?_) nofun
  · rw [free]
    nofun
  · cases Option.some.inj isGuard
    exact ⟨published, inv.tail_alive.2, inv.tail_mem⟩
  · exact Or.inl (Option.some.inj isGuard).symm
  · cases Option.some.inj isTail
    exact inv.not_older_self _

theorem Heap.Inv.guardHead (inv : h.Inv) (free : h.task u = .free)
    (published : h.slot u = some (h.addr h.head)) : (h.setTask u (.onHead h.head)).Inv := by
  refine inv.setTask ?_ (fun i isGuard => ?_) (fun i isGuard => ?_) nofun nofun
  · rw [free]
    nofun
  · cases Option.some.inj isGuard
    exact ⟨published, inv.head_alive.2, inv.head_mem⟩
  · exact Or.inr (Option.some.inj isGuard).symm

theorem Heap.Inv.free (inv : h.Inv) (done : h.task u ≠ .linked h.tail) :
    (h.setTask u .free).Inv :=
  inv.setTask done nofun nofun nofun nofun

/-- A scan goes on with the next slot. -/
theorem Heap.Inv.pass {ptr iret tid obj : ℕ} (inv : h.Inv) (isScan : h.task u = .scan ptr iret tid)
    (looked : (h.retired u)[iret]? = some obj) (differs : h.slot tid ≠ some (h.addr obj)) :
    (h.setTask u (.scan ptr iret (tid + 1))).Inv := by
  obtain ⟨slot, latest, settled, seen⟩ := inv.scans u ptr iret tid isScan
  refine inv.setTask ?_ nofun nofun nofun fun ptr' iret' tid' same => ?_
  · rw [isScan]
    nofun
  · cases same
    refine ⟨slot, latest, settled, fun i at_ => ?_⟩
    have isObj : obj = i := Option.some.inj (looked.symm.trans at_)
    subst isObj
    refine ⟨fun isPtr => ?_, fun notPtr w before isGuard => ?_⟩
    · -- the agent's own slot holds `ptr`
      have le := (seen obj looked).1 isPtr
      refine Nat.lt_of_le_of_ne le fun own => differs ?_
      rw [isPtr, own]
      exact slot
    · have isGuard : (h.task w).guard = some obj := by
        by_cases same : w = u
        · subst same
          rw [show (h.setTask w (.scan ptr iret (tid + 1))).task w = _ from
            Function.update_self ..] at isGuard
          cases isGuard
        · rwa [show (h.setTask u (.scan ptr iret (tid + 1))).task w = _ from
            Function.update_of_ne same ..] at isGuard
      rcases Nat.lt_succ_iff_lt_or_eq.mp before with earlier | here
      · exact (seen obj looked).2 notPtr w earlier isGuard
      · rw [← here] at differs
        exact differs (inv.guarded w obj isGuard).1

/-- A scan turns to another retired node, or ends. -/
theorem Heap.Inv.skip {ptr iret tid : ℕ} (iret' size : ℕ) (inv : h.Inv)
    (isScan : h.task u = .scan ptr iret tid) : (h.setTask u (.scanFrom ptr iret' size)).Inv := by
  obtain ⟨slot, latest, settled, _⟩ := inv.scans u ptr iret tid isScan
  have notLinked : h.task u ≠ .linked h.tail := by
    rw [isScan]
    nofun
  unfold Task.scanFrom
  split
  · refine inv.setTask notLinked nofun nofun nofun fun ptr' iret'' tid' same => ?_
    cases same
    exact ⟨slot, latest, settled, fun i _ => ⟨fun _ => Nat.zero_le _, fun _ _ before => nomatch before⟩⟩
  · exact inv.free notLinked

/-! ## Nodes come and go -/

theorem Heap.Inv.construct {a : A} (inv : h.Inv) (unused : ∀ i, h.Alive i → h.addr i ≠ a)
    (noOwn : h.own u = none) :
    Heap.Inv { h with
      addr := Function.update h.addr h.made a
      made := h.made + 1
      own := Function.update h.own u (some h.made)
      mem := .construct h.made :: h.mem } := by
  have old : ∀ i, i < h.made → Function.update h.addr h.made a i = h.addr i := fun i lt =>
    Function.update_of_ne lt.ne ..
  have new : Function.update h.addr h.made a h.made = a := Function.update_self ..
  have fresh : ∀ e ∈ h.mem, e.node ≠ h.made := fun e member => (inv.mem_lt e member).ne
  have destroyed : ∀ i, .destroy i ∈ MemEvent.construct h.made :: h.mem → .destroy i ∈ h.mem :=
    fun i member => by simpa using member
  have retired : ∀ i, .retire i ∈ MemEvent.construct h.made :: h.mem → .retire i ∈ h.mem :=
    fun i member => by simpa using member
  have aliveOld : ∀ i, i < h.made + 1 → .destroy i ∉ MemEvent.construct h.made :: h.mem →
      i ≠ h.made → h.Alive i := fun i lt notDestroyed other =>
    ⟨by omega, fun member => notDestroyed (List.mem_cons_of_mem _ member)⟩
  have ownOther : ∀ w i, Function.update h.own u (some h.made) w = some i →
      (w = u ∧ i = h.made) ∨ (w ≠ u ∧ h.own w = some i) := by
    intro w i has
    by_cases same : w = u
    · subst same
      rw [Function.update_self] at has
      exact Or.inl ⟨rfl, (Option.some.inj has).symm⟩
    · rw [Function.update_of_ne same] at has
      exact Or.inr ⟨same, has⟩
  refine
    { inv with
      nodup := List.nodup_cons.mpr ⟨fun member => fresh _ member rfl, inv.nodup⟩
      mem_lt := fun e member => ?_
      inj := fun i j aliveI aliveJ same => ?_
      chain_lt := fun i member => (inv.chain_lt i member).trans (Nat.lt_succ_self _)
      guarded := fun w i isGuard => ?_
      own := fun w i has => ?_
      own_unique := fun w w' i has has' => ?_
      retired := fun w i member => ?_
      retire_old := fun i member => inv.retire_old i (retired i member)
      destroy_old := fun i member => inv.destroy_old i (destroyed i member)
      scans := fun w ptr iret tid isScan => ?_ }
  · rcases List.mem_cons.mp member with rfl | inMem
    · exact Nat.lt_succ_self _
    · exact (inv.mem_lt e inMem).trans (Nat.lt_succ_self _)
  · have same : Function.update h.addr h.made a i = Function.update h.addr h.made a j := same
    by_cases isNew : i = h.made
    · by_cases isNew' : j = h.made
      · rw [isNew, isNew']
      · have aliveJ := aliveOld j aliveJ.1 aliveJ.2 isNew'
        rw [isNew, new, old j aliveJ.1] at same
        exact absurd same.symm (unused j aliveJ)
    · have aliveI := aliveOld i aliveI.1 aliveI.2 isNew
      by_cases isNew' : j = h.made
      · rw [isNew', new, old i aliveI.1] at same
        exact absurd same (unused i aliveI)
      · have aliveJ := aliveOld j aliveJ.1 aliveJ.2 isNew'
        rw [old i aliveI.1, old j aliveJ.1] at same
        exact inv.inj i j aliveI aliveJ same
  · obtain ⟨slot, notDestroyed, member⟩ := inv.guarded w i isGuard
    refine ⟨?_, fun inMem => notDestroyed (destroyed i inMem), member⟩
    show h.slot w = some (Function.update h.addr h.made a i)
    rw [old i (inv.chain_lt i member)]
    exact slot
  · rcases ownOther w i has with ⟨rfl, rfl⟩ | ⟨_, has⟩
    · refine ⟨⟨Nat.lt_succ_self _, fun inMem => ?_⟩, fun member => ?_⟩
      · exact fresh _ (destroyed _ inMem) rfl
      · exact lt_irrefl _ (inv.chain_lt _ member)
    · obtain ⟨⟨lt, notDestroyed⟩, missing⟩ := inv.own w i has
      exact ⟨⟨lt.trans (Nat.lt_succ_self _), fun inMem => notDestroyed (destroyed i inMem)⟩,
        missing⟩
  · rcases ownOther w i has with ⟨isU, isNew⟩ | ⟨_, before⟩
    · rcases ownOther w' i has' with ⟨isU', _⟩ | ⟨_, before'⟩
      · rw [isU, isU']
      · exact absurd (inv.own w' i before').1.1 (by omega)
    · rcases ownOther w' i has' with ⟨_, isNew⟩ | ⟨_, before'⟩
      · exact absurd (inv.own w i before).1.1 (by omega)
      · exact inv.own_unique w w' i before before'
  · obtain ⟨notDestroyed, isRetired⟩ := inv.retired w i member
    exact ⟨fun inMem => notDestroyed (destroyed i inMem), List.mem_cons_of_mem _ isRetired⟩
  · obtain ⟨slot, latest, settled, seen⟩ := inv.scans w ptr iret tid isScan
    refine ⟨?_, latest, settled, seen⟩
    show h.slot w = some (Function.update h.addr h.made a ptr)
    rw [old ptr (inv.retired_lt latest)]
    exact slot

/-- A node that was never linked is destroyed by its owner. -/
theorem Heap.Inv.discard {i : ℕ} (inv : h.Inv) (has : h.own u = some i) :
    Heap.Inv { h with own := Function.update h.own u none, mem := .destroy i :: h.mem } := by
  obtain ⟨alive, missing⟩ := inv.own u i has
  have destroyed : ∀ j, j ≠ i → .destroy j ∈ MemEvent.destroy i :: h.mem → .destroy j ∈ h.mem :=
    fun j other member => by simpa [other] using member
  have retired : ∀ j, .retire j ∈ MemEvent.destroy i :: h.mem → .retire j ∈ h.mem :=
    fun j member => by simpa using member
  have alive' : ∀ j, j < h.made → .destroy j ∉ MemEvent.destroy i :: h.mem → h.Alive j :=
    fun j lt notDestroyed => ⟨lt, fun member => notDestroyed (List.mem_cons_of_mem _ member)⟩
  have ownOther : ∀ w j, Function.update h.own u none w = some j → w ≠ u ∧ h.own w = some j := by
    intro w j has'
    by_cases same : w = u
    · subst same
      rw [Function.update_self] at has'
      cases has'
    · rw [Function.update_of_ne same] at has'
      exact ⟨same, has'⟩
  refine
    { inv with
      nodup := List.nodup_cons.mpr ⟨alive.2, inv.nodup⟩
      mem_lt := fun e member => ?_
      inj := fun j k aliveJ aliveK => inv.inj j k (alive' j aliveJ.1 aliveJ.2)
        (alive' k aliveK.1 aliveK.2)
      guarded := fun w j isGuard => ?_
      own := fun w j has' => ?_
      own_unique := fun w w' j first second => ?_
      retired := fun w j member => ?_
      retire_old := fun j member => inv.retire_old j (retired j member)
      destroy_old := fun j member inChain => ?_
      scans := fun w ptr iret tid isScan => ?_ }
  · rcases List.mem_cons.mp member with rfl | inMem
    · exact alive.1
    · exact inv.mem_lt e inMem
  · obtain ⟨slot, notDestroyed, inChain⟩ := inv.guarded w j isGuard
    have other : j ≠ i := fun same => missing (same ▸ inChain)
    exact ⟨slot, fun inMem => notDestroyed (destroyed j other inMem), inChain⟩
  · obtain ⟨other, has'⟩ := ownOther w j has'
    obtain ⟨⟨lt, notDestroyed⟩, notIn⟩ := inv.own w j has'
    have differs : j ≠ i := fun same => other (inv.own_unique w u i (same ▸ has') has)
    exact ⟨⟨lt, fun inMem => notDestroyed (destroyed j differs inMem)⟩, notIn⟩
  · exact inv.own_unique w w' j (ownOther w j first).2 (ownOther w' j second).2
  · obtain ⟨notDestroyed, isRetired⟩ := inv.retired w j member
    have other : j ≠ i := fun same => missing (same ▸ (inv.retire_old j isRetired).mem_old)
    exact ⟨fun inMem => notDestroyed (destroyed j other inMem), List.mem_cons_of_mem _ isRetired⟩
  · exact inv.destroy_old j (destroyed j (fun same => missing (same ▸ inChain)) member) inChain
  · obtain ⟨slot, latest, settled, seen⟩ := inv.scans w ptr iret tid isScan
    exact ⟨slot, latest, settled, seen⟩

/-! ## The list grows and is left behind -/

theorem Heap.Inv.link {i j : ℕ} {rest : List ℕ} (inv : h.Inv) (onTail : h.task u = .onTail i)
    (has : h.own u = some j) (newest : h.chain = i :: rest) :
    Heap.Inv { h with
      next := Function.update h.next i (some j)
      chain := j :: h.chain
      own := Function.update h.own u none
      task := Function.update h.task u (.linked i) } := by
  obtain ⟨alive, missing⟩ := inv.own u j has
  have iMem : i ∈ h.chain := by
    rw [newest]
    exact List.mem_cons_self
  have notNewer : ∀ k, ¬ Older h.chain i k := fun k => by
    have distinct := inv.distinct
    rw [newest] at distinct ⊢
    exact Older.not_newest distinct
  have isTail : h.tail = i := by
    rcases older_total inv.tail_mem iMem with same | older | newer
    · exact same
    · exact absurd older (inv.behind u i (by rw [onTail]; rfl))
    · exact absurd newer (notNewer _)
  have distinct : (j :: h.chain).Nodup := List.nodup_cons.mpr ⟨missing, inv.distinct⟩
  have keep : ∀ {x y}, y ∈ h.chain → Older (j :: h.chain) x y → Older h.chain x y :=
    fun {x y} member older => by
      rcases older with ⟨same, _⟩ | older
      · exact absurd (same ▸ member) missing
      · exact older
  have others : ∀ w, w ≠ u → Function.update h.task u (.linked i) w = h.task w := fun w other =>
    Function.update_of_ne other ..
  have self : Function.update h.task u (.linked i) u = .linked i := Function.update_self ..
  have nextOther : ∀ k, k ≠ i → Function.update h.next i (some j) k = h.next k := fun k other =>
    Function.update_of_ne other ..
  have guardSame : ∀ w, (Function.update h.task u (.linked i) w).guard = (h.task w).guard := by
    intro w
    by_cases same : w = u
    · rw [same, self, onTail]
      rfl
    · rw [others w same]
  have fromSame : ∀ w, (Function.update h.task u (.linked i) w).fromTail =
      (h.task w).fromTail := by
    intro w
    by_cases same : w = u
    · rw [same, self, onTail]
      rfl
    · rw [others w same]
  have ownOther : ∀ w k, Function.update h.own u none w = some k → w ≠ u ∧ h.own w = some k := by
    intro w k has'
    by_cases same : w = u
    · rw [same, Function.update_self] at has'
      cases has'
    · rw [Function.update_of_ne same] at has'
      exact ⟨same, has'⟩
  refine
    { inv with
      distinct := distinct
      linked := ?_
      next_out := fun k notIn => ?_
      chain_lt := fun k member => ?_
      head_mem := List.mem_cons_of_mem _ inv.head_mem
      tail_mem := List.mem_cons_of_mem _ inv.tail_mem
      lag := fun x y isNext older => ?_
      passed := fun k older before => ?_
      pending := fun k isNext => ⟨u, ?_⟩
      guarded := fun w k isGuard => ?_
      behind := fun w k isFrom older => ?_
      own := fun w k has' => ?_
      own_unique := fun w w' k first second => inv.own_unique w w' k (ownOther w k first).2
        (ownOther w' k second).2
      retire_old := fun k retired => (inv.retire_old k retired).cons
      destroy_old := fun k destroyed member => ?_
      scans := fun w ptr iret tid isScan => ?_ }
  · show Linked (Function.update h.next i (some j)) none (j :: h.chain)
    have linked := inv.linked
    have fresh := inv.distinct
    rw [newest] at linked fresh missing ⊢
    refine linked.push (fun k member => nextOther k ?_) (Function.update_self ..) ?_
    · exact fun same => (List.nodup_cons.mp fresh).1 (same ▸ member)
    · rw [nextOther j fun same => missing (same ▸ List.mem_cons_self)]
      exact inv.next_out j (by rw [newest]; exact missing)
  · show Function.update h.next i (some j) k = none
    have notIn : k ∉ h.chain := fun member => notIn (List.mem_cons_of_mem _ member)
    rw [nextOther k fun same => notIn (same ▸ iMem)]
    exact inv.next_out k notIn
  · rcases List.mem_cons.mp member with rfl | old
    · exact alive.1
    · exact inv.chain_lt k old
  · have isNext : Function.update h.next i (some j) x = some y := isNext
    by_cases same : x = i
    · rw [same, show Heap.tail _ = h.tail from rfl, isTail] at older
      exact Older.irrefl distinct older
    · rw [nextOther x same] at isNext
      exact inv.lag x y isNext (keep (inv.next_older isNext).1.mem_old older)
  · rcases List.mem_cons.mp older.mem_new with rfl | old
    · exact Older.not_newest distinct before
    · rw [show Heap.tail _ = h.tail from rfl, isTail] at older
      exact notNewer k (keep old older)
  · have isNext : Function.update h.next i (some j) h.tail = some k := isNext
    rw [isTail, Function.update_self] at isNext
    cases Option.some.inj isNext
    show Function.update h.task u (.linked i) u = .linked h.tail
    rw [self, isTail]
  · obtain ⟨slot, notDestroyed, member⟩ := inv.guarded w k ((guardSame w).symm.trans isGuard)
    exact ⟨slot, notDestroyed, List.mem_cons_of_mem _ member⟩
  · have isFrom := (fromSame w).symm.trans isFrom
    have member := (inv.guarded w k (Task.guard_of_fromTail isFrom)).2.2
    exact inv.behind w k isFrom (keep member older)
  · obtain ⟨other, before⟩ := ownOther w k has'
    obtain ⟨alive', notIn⟩ := inv.own w k before
    refine ⟨alive', fun member => ?_⟩
    rcases List.mem_cons.mp member with same | old
    · exact other (inv.own_unique w u j (same ▸ before) has)
    · exact notIn old
  · rcases List.mem_cons.mp member with rfl | old
    · exact absurd destroyed alive.2
    · obtain ⟨first, second⟩ := inv.destroy_old k destroyed old
      exact ⟨first.cons, second.cons⟩
  · have notU : w ≠ u := fun same => by
      have isScan : Function.update h.task u (.linked i) w = .scan ptr iret tid := isScan
      rw [same, self] at isScan
      cases isScan
    have isScan : h.task w = .scan ptr iret tid := (others w notU).symm.trans isScan
    obtain ⟨slot, latest, settled, seen⟩ := inv.scans w ptr iret tid isScan
    refine ⟨slot, latest, fun k member => (settled k member).imp_right Older.cons, fun k at_ => ?_⟩
    refine ⟨(seen k at_).1, fun notPtr v before isGuard => ?_⟩
    exact (seen k at_).2 notPtr v before ((guardSame v).symm.trans isGuard)

/-- The tail moves on to the next node. -/
theorem Heap.Inv.moveTail {j : ℕ} (inv : h.Inv) (link : h.next h.tail = some j) :
    Heap.Inv { h.setTask u .free with tail := j } := by
  have older := (inv.next_older link).1
  have later : ∀ {k}, Older h.chain j k → Older h.chain h.tail k := fun after =>
    older.trans inv.distinct after
  have others : ∀ w, w ≠ u → Function.update h.task u .free w = h.task w := fun w other =>
    Function.update_of_ne other ..
  have self : Function.update h.task u .free u = .free := Function.update_self ..
  have keeps : ∀ {w t}, t ≠ .free → Function.update h.task u .free w = t → h.task w = t := by
    intro w t busy isTask
    rw [others w] at isTask
    · exact isTask
    · rintro rfl
      exact busy (isTask.symm.trans self)
  have guardKeeps : ∀ w k, (Function.update h.task u .free w).guard = some k →
      (h.task w).guard = some k := by
    intro w k isGuard
    rwa [← keeps (fun isFree => by rw [isFree] at isGuard; cases isGuard) rfl] at isGuard
  refine
    { inv with
      tail_mem := older.mem_new
      lag := fun x y isNext after => inv.lag x y isNext (later after)
      passed := fun k after => inv.passed k (later after)
      pending := fun k isNext => absurd older (inv.lag j k isNext)
      guarded := fun w k isGuard => inv.guarded w k (guardKeeps w k isGuard)
      behind := fun w k isFrom after => ?_
      destroy_old := fun k destroyed member => ?_
      scans := fun w ptr iret tid isScan => ?_ }
  · have isFrom' : (Function.update h.task u .free w).fromTail = some k := isFrom
    rw [← keeps (fun isFree => by rw [isFree] at isFrom'; cases isFrom') rfl] at isFrom'
    exact inv.behind w k isFrom' (later after)
  · obtain ⟨first, second⟩ := inv.destroy_old k destroyed member
    exact ⟨first, second.trans inv.distinct older⟩
  · obtain ⟨slot, latest, settled, seen⟩ := inv.scans w ptr iret tid (keeps nofun isScan)
    refine ⟨slot, latest, fun k member => (settled k member).imp_right fun before =>
      before.trans inv.distinct older, fun k at_ => ⟨(seen k at_).1, fun notPtr v before => ?_⟩⟩
    exact fun isGuard => (seen k at_).2 notPtr v before (guardKeeps v k isGuard)

theorem Heap.Inv.advance {i j : ℕ} (inv : h.Inv) (inUse : (h.task u).fromTail = some i)
    (link : h.next i = some j) :
    Heap.Inv { h.setTask u .free with tail := if h.tail = i then j else h.tail } := by
  by_cases isTail : h.tail = i
  · rw [if_pos isTail]
    exact inv.moveTail (isTail ▸ link)
  · rw [if_neg isTail]
    refine inv.free fun isLinked => isTail ?_
    rw [isLinked] at inUse
    exact Option.some.inj inUse

/-- The head moves on to the next node and the old one is retired. -/
theorem Heap.Inv.unlink {j : ℕ} (inv : h.Inv) (onHead : h.task u = .onHead h.head)
    (link : h.next h.head = some j) :
    Heap.Inv { h with
      head := j
      retired := Function.update h.retired u (h.retired u ++ [h.head])
      task := Function.update h.task u (.scan h.head 0 0)
      mem := .retire h.head :: h.mem } := by
  obtain ⟨older, between⟩ := inv.next_older link
  have slotU := (inv.guarded u h.head (by rw [onHead]; rfl)).1
  have fresh : .retire h.head ∉ h.mem := fun retired =>
    inv.not_older_self _ (inv.retire_old _ retired)
  have destroyed : ∀ k, .destroy k ∈ MemEvent.retire h.head :: h.mem → .destroy k ∈ h.mem :=
    fun k member => by simpa using member
  have others : ∀ w, w ≠ u → Function.update h.task u (.scan h.head 0 0) w = h.task w :=
    fun w other => Function.update_of_ne other ..
  have self : Function.update h.task u (.scan h.head 0 0) u = .scan h.head 0 0 :=
    Function.update_self ..
  have notU : ∀ {w t}, t ≠ .scan h.head 0 0 → Function.update h.task u (.scan h.head 0 0) w = t →
      w ≠ u := by
    rintro w t differs isTask rfl
    exact differs (isTask.symm.trans self)
  have keeps : ∀ {w t}, t ≠ .scan h.head 0 0 →
      Function.update h.task u (.scan h.head 0 0) w = t → h.task w = t := fun differs isTask =>
    (others _ (notU differs isTask)).symm.trans isTask
  have guardKeeps : ∀ w k, (Function.update h.task u (.scan h.head 0 0) w).guard = some k →
      (h.task w).guard = some k := by
    intro w k isGuard
    rwa [← keeps (fun isScan => by rw [isScan] at isGuard; cases isGuard) rfl] at isGuard
  have retiredMem : ∀ w k, k ∈ Function.update h.retired u (h.retired u ++ [h.head]) w →
      k ∈ h.retired w ∨ (w = u ∧ k = h.head) := by
    intro w k member
    by_cases same : w = u
    · subst same
      rw [Function.update_self] at member
      rcases List.mem_append.mp member with old | new
      · exact Or.inl old
      · exact Or.inr ⟨rfl, List.mem_singleton.mp new⟩
    · rw [Function.update_of_ne same] at member
      exact Or.inl member
  have notRetired : ∀ w, h.head ∉ h.retired w := fun w member => fresh (inv.retired w _ member).2
  refine
    { inv with
      nodup := List.nodup_cons.mpr ⟨fresh, inv.nodup⟩
      mem_lt := fun e member => ?_
      inj := fun k l aliveK aliveL => inv.inj k l
        ⟨aliveK.1, fun gone => aliveK.2 (List.mem_cons_of_mem _ gone)⟩
        ⟨aliveL.1, fun gone => aliveL.2 (List.mem_cons_of_mem _ gone)⟩
      head_mem := older.mem_new
      passed := fun k after before => ?_
      pending := fun k isNext => ?_
      guarded := fun w k isGuard => ?_
      behind := fun w k isFrom => ?_
      own := fun w k has => ?_
      retired := fun w k member => ?_
      retired_nodup := fun w => ?_
      retired_apart := fun w w' k first second => ?_
      retire_old := fun k retired => ?_
      destroy_old := fun k gone member => ?_
      scans := fun w ptr iret tid isScan => ?_ }
  · rcases List.mem_cons.mp member with rfl | inMem
    · exact inv.chain_lt _ inv.head_mem
    · exact inv.mem_lt e inMem
  · rcases between k before with rfl | deeper
    · exact inv.lag _ j link after
    · exact inv.passed k after deeper
  · obtain ⟨w, isLinked⟩ := inv.pending k isNext
    refine ⟨w, ?_⟩
    show Function.update h.task u (.scan h.head 0 0) w = _
    rw [others w fun same => by rw [same, onHead] at isLinked; cases isLinked]
    exact isLinked
  · obtain ⟨slot, notGone, member⟩ := inv.guarded w k (guardKeeps w k isGuard)
    exact ⟨slot, fun gone => notGone (destroyed k gone), member⟩
  · have isFrom' : (Function.update h.task u (.scan h.head 0 0) w).fromTail = some k := isFrom
    rw [← keeps (fun isScan => by rw [isScan] at isFrom'; cases isFrom') rfl] at isFrom'
    exact inv.behind w k isFrom'
  · obtain ⟨⟨lt, notGone⟩, missing⟩ := inv.own w k has
    exact ⟨⟨lt, fun gone => notGone (destroyed k gone)⟩, missing⟩
  · rcases retiredMem w k member with old | ⟨_, rfl⟩
    · obtain ⟨notGone, isRetired⟩ := inv.retired w k old
      exact ⟨fun gone => notGone (destroyed k gone), List.mem_cons_of_mem _ isRetired⟩
    · exact ⟨fun gone => inv.head_alive.2 (destroyed _ gone), List.mem_cons_self⟩
  · show (Function.update h.retired u (h.retired u ++ [h.head]) w).Nodup
    by_cases same : w = u
    · subst same
      rw [Function.update_self]
      refine (inv.retired_nodup w).append (List.nodup_singleton _) fun k old new => ?_
      exact notRetired w (List.mem_singleton.mp new ▸ old)
    · rw [Function.update_of_ne same]
      exact inv.retired_nodup w
  · rcases retiredMem w k first with old | ⟨isU, isHead⟩
    · rcases retiredMem w' k second with old' | ⟨isU', isHead⟩
      · exact inv.retired_apart w w' k old old'
      · exact absurd (isHead ▸ old) (notRetired w)
    · rcases retiredMem w' k second with old' | ⟨isU', _⟩
      · exact absurd (isHead ▸ old') (notRetired w')
      · rw [isU, isU']
  · rcases List.mem_cons.mp retired with same | old
    · cases same
      exact older
    · exact (inv.retire_old k old).trans inv.distinct older
  · obtain ⟨first, second⟩ := inv.destroy_old k (destroyed k gone) member
    exact ⟨first.trans inv.distinct older, second⟩
  · by_cases same : w = u
    · subst same
      cases (show Task.scan h.head 0 0 = .scan ptr iret tid from self.symm.trans isScan)
      refine ⟨slotU, ?_, fun k member => ?_, fun k _ => ⟨fun _ => Nat.zero_le _, nofun⟩⟩
      · show h.head ∈ Function.update h.retired w (h.retired w ++ [h.head]) w
        rw [Function.update_self]
        exact List.mem_append_right _ (List.mem_singleton_self _)
      · rcases retiredMem w k member with old | ⟨_, isHead⟩
        · -- the tail has come to the old head, so it has left what was retired before
          exact Or.inr (inv.tail_after link (inv.retire_old k (inv.retired w k old).2))
        · exact Or.inl isHead
    · have isScan : h.task w = .scan ptr iret tid := (others w same).symm.trans isScan
      obtain ⟨slot, latest, settled, seen⟩ := inv.scans w ptr iret tid isScan
      have retiredSame : Function.update h.retired u (h.retired u ++ [h.head]) w = h.retired w :=
        Function.update_of_ne same ..
      refine ⟨slot, ?_, fun k member => ?_, fun k at_ => ?_⟩
      · show ptr ∈ Function.update h.retired u (h.retired u ++ [h.head]) w
        rw [retiredSame]
        exact latest
      · have member : k ∈ Function.update h.retired u (h.retired u ++ [h.head]) w := member
        rw [retiredSame] at member
        exact settled k member
      · have at_ : (Function.update h.retired u (h.retired u ++ [h.head]) w)[iret]? = some k := at_
        rw [retiredSame] at at_
        refine ⟨(seen k at_).1, fun notPtr v before isGuard => ?_⟩
        exact (seen k at_).2 notPtr v before (guardKeeps v k isGuard)

/-- A retired node that nobody uses is destroyed. -/
theorem Heap.Inv.erase {iret obj : ℕ} (inv : h.Inv) (looked : (h.retired u)[iret]? = some obj)
    (olderTail : Older h.chain obj h.tail) (unguarded : ∀ w, (h.task w).guard ≠ some obj)
    (restarted : ∀ ptr i tid, h.task u = .scan ptr i tid → ptr ≠ obj ∧ tid = 0) :
    Heap.Inv { h with
      retired := Function.update h.retired u ((h.retired u).eraseIdx iret)
      mem := .destroy obj :: h.mem } := by
  have member : obj ∈ h.retired u := List.mem_of_getElem? looked
  obtain ⟨notGone, isRetired⟩ := inv.retired u obj member
  have olderHead := inv.retire_old obj isRetired
  have destroyed : ∀ k, k ≠ obj → .destroy k ∈ MemEvent.destroy obj :: h.mem →
      .destroy k ∈ h.mem := fun k other inMem => by simpa [other] using inMem
  have retired : ∀ k, .retire k ∈ MemEvent.destroy obj :: h.mem → .retire k ∈ h.mem :=
    fun k inMem => by simpa using inMem
  have alive' : ∀ k, k < h.made → .destroy k ∉ MemEvent.destroy obj :: h.mem → h.Alive k :=
    fun k lt notGone' => ⟨lt, fun gone => notGone' (List.mem_cons_of_mem _ gone)⟩
  have erased : ∀ k ∈ (h.retired u).eraseIdx iret, k ∈ h.retired u ∧ k ≠ obj := by
    intro k inErased
    obtain ⟨m, other, at_⟩ := List.mem_eraseIdx_iff_getElem?.mp inErased
    refine ⟨List.mem_of_getElem? at_, fun same => other ?_⟩
    have lt := (List.getElem?_eq_some_iff.mp at_).1
    exact (List.getElem?_inj lt (inv.retired_nodup u)).mp (at_.trans (same ▸ looked.symm))
  have retiredMem : ∀ w k, k ∈ Function.update h.retired u ((h.retired u).eraseIdx iret) w →
      k ∈ h.retired w ∧ k ≠ obj := by
    intro w k inList
    by_cases same : w = u
    · subst same
      rw [Function.update_self] at inList
      exact erased k inList
    · rw [Function.update_of_ne same] at inList
      exact ⟨inList, fun isObj => same (inv.retired_apart w u obj (isObj ▸ inList) member)⟩
  refine
    { inv with
      nodup := List.nodup_cons.mpr ⟨notGone, inv.nodup⟩
      mem_lt := fun e inMem => ?_
      inj := fun k l aliveK aliveL => inv.inj k l (alive' k aliveK.1 aliveK.2)
        (alive' l aliveL.1 aliveL.2)
      guarded := fun w k isGuard => ?_
      own := fun w k has => ?_
      retired := fun w k inList => ?_
      retired_nodup := fun w => ?_
      retired_apart := fun w w' k first second => inv.retired_apart w w' k (retiredMem w k first).1
        (retiredMem w' k second).1
      retire_old := fun k inMem => inv.retire_old k (retired k inMem)
      destroy_old := fun k gone inChain => ?_
      scans := fun w ptr i tid isScan => ?_ }
  · rcases List.mem_cons.mp inMem with rfl | old
    · exact inv.retired_lt member
    · exact inv.mem_lt e old
  · obtain ⟨slot, notGone', inChain⟩ := inv.guarded w k isGuard
    have other : k ≠ obj := fun same => unguarded w (same ▸ isGuard)
    exact ⟨slot, fun gone => notGone' (destroyed k other gone), inChain⟩
  · obtain ⟨⟨lt, notGone'⟩, missing⟩ := inv.own w k has
    have other : k ≠ obj := fun same => missing (same ▸ olderHead.mem_old)
    exact ⟨⟨lt, fun gone => notGone' (destroyed k other gone)⟩, missing⟩
  · obtain ⟨old, other⟩ := retiredMem w k inList
    obtain ⟨notGone', isRetired'⟩ := inv.retired w k old
    exact ⟨fun gone => notGone' (destroyed k other gone), List.mem_cons_of_mem _ isRetired'⟩
  · show (Function.update h.retired u ((h.retired u).eraseIdx iret) w).Nodup
    by_cases same : w = u
    · subst same
      rw [Function.update_self]
      exact (inv.retired_nodup w).sublist (List.eraseIdx_sublist ..)
    · rw [Function.update_of_ne same]
      exact inv.retired_nodup w
  · by_cases isObj : k = obj
    · rw [isObj]
      exact ⟨olderHead, olderTail⟩
    · exact inv.destroy_old k (destroyed k isObj gone) inChain
  · obtain ⟨slot, latest, settled, seen⟩ := inv.scans w ptr i tid isScan
    refine ⟨slot, ?_, fun k inList => settled k (retiredMem w k inList).1, fun k at_ => ?_⟩
    · show ptr ∈ Function.update h.retired u ((h.retired u).eraseIdx iret) w
      by_cases same : w = u
      · subst same
        rw [Function.update_self]
        obtain ⟨m, at_⟩ := List.mem_iff_getElem?.mp latest
        refine List.mem_eraseIdx_iff_getElem?.mpr ⟨m, fun isIret => ?_, at_⟩
        rw [isIret] at at_
        exact (restarted ptr i tid isScan).1 (Option.some.inj (at_.symm.trans looked))
      · rw [Function.update_of_ne same]
        exact latest
    · by_cases same : w = u
      · subst same
        obtain ⟨_, rfl⟩ := restarted ptr i tid isScan
        exact ⟨fun _ => Nat.zero_le _, nofun⟩
      · have at_ : (Function.update h.retired u ((h.retired u).eraseIdx iret) w)[i]? = some k := at_
        rw [Function.update_of_ne same] at at_
        exact seen k at_

/-- A scan that has seen all slots destroys the node it looked for. -/
theorem Heap.Inv.destroy {ptr iret obj size : ℕ} (inv : h.Inv)
    (isScan : h.task u = .scan ptr iret n) (looked : (h.retired u)[iret]? = some obj) :
    Heap.Inv { h with
      retired := Function.update h.retired u ((h.retired u).eraseIdx iret)
      task := Function.update h.task u (.scanFrom ptr iret size)
      mem := .destroy obj :: h.mem } := by
  obtain ⟨_, _, settled, seen⟩ := inv.scans u ptr iret n isScan
  -- the agent's own slot holds `ptr`, so no scan gets past it with `ptr`
  have notPtr : obj ≠ ptr := fun isPtr =>
    absurd ((seen obj looked).1 isPtr) (Nat.not_le.mpr u.isLt)
  have self : (h.setTask u (.scanFrom ptr iret size)).task u = .scanFrom ptr iret size :=
    Function.update_self ..
  have others : ∀ w, w ≠ u → (h.setTask u (.scanFrom ptr iret size)).task w = h.task w :=
    fun w other => Function.update_of_ne other ..
  refine (inv.skip iret size isScan).erase (u := u) looked
    ((settled obj (List.mem_of_getElem? looked)).resolve_left notPtr) (fun w isGuard => ?_) ?_
  · by_cases same : w = u
    · rw [same, self, Task.scanFrom] at isGuard
      split at isGuard <;> cases isGuard
    · rw [others w same] at isGuard
      exact (seen obj looked).2 notPtr w w.isLt isGuard
  · intro ptr' i tid isScan'
    rw [self, Task.scanFrom] at isScan'
    split at isScan'
    · cases isScan'
      exact ⟨notPtr.symm, rfl⟩
    · cases isScan'

theorem Step.inv (inv : h.Inv) (step : Step h h') : h'.Inv := by
  cases step with
  | publish u v free after => exact after ▸ inv.publish v free
  | guardTail u free published after => exact after ▸ inv.guardTail free published
  | guardHead u free published after => exact after ▸ inv.guardHead free published
  | drop u i inUse after =>
      rw [after]
      refine inv.free fun isLinked => ?_
      rcases inUse with onTail | onHead
      · cases isLinked.symm.trans onTail
      · cases isLinked.symm.trans onHead
  | construct u a unused noOwn after => exact after ▸ inv.construct unused noOwn
  | discard u i has after => exact after ▸ inv.discard has
  | link u i j rest onTail has newest after => exact after ▸ inv.link onTail has newest
  | advance u i j inUse link after => exact after ▸ inv.advance inUse link
  | unlink u j onHead link after => exact after ▸ inv.unlink onHead link
  | pass u ptr i tid obj isScan looked differs after => exact after ▸ inv.pass isScan looked differs
  | skip u ptr i tid isScan after => exact after ▸ inv.skip (i + 1) _ isScan
  | destroy u ptr i obj isScan looked after => exact after ▸ inv.destroy isScan looked

/-- One node, nobody at work. -/
theorem Heap.Inv.init (made : h.made = 1) (next : ∀ i, h.next i = none) (chain : h.chain = [0])
    (head : h.head = 0) (tail : h.tail = 0) (task : ∀ u, h.task u = .free)
    (own : ∀ u, h.own u = none) (retired : ∀ u, h.retired u = []) (mem : h.mem = [.construct 0]) :
    h.Inv := by
  have noOlder : ∀ i j, ¬ Older h.chain i j := by
    intro i j
    rw [chain]
    rintro (⟨_, member⟩ | deeper)
    · cases member
    · exact deeper
  refine
    { nodup := by rw [mem]; exact List.nodup_singleton _
      mem_lt := fun e member => ?_
      inj := fun i j aliveI aliveJ _ => ?_
      distinct := by rw [chain]; exact List.nodup_singleton _
      linked := by rw [chain]; exact ⟨next 0, trivial⟩
      next_out := fun i _ => next i
      chain_lt := fun i member => ?_
      head_mem := by rw [chain, head]; exact List.mem_cons_self
      tail_mem := by rw [chain, tail]; exact List.mem_cons_self
      lag := fun i j _ => noOlder _ _
      passed := fun i _ => noOlder _ _
      pending := fun j link => ?_
      guarded := fun u i isGuard => ?_
      behind := fun u i _ => noOlder _ _
      own := fun u i has => ?_
      own_unique := fun u w i has => ?_
      retired := fun u i member => ?_
      retired_nodup := fun u => by rw [retired]; exact List.nodup_nil
      retired_apart := fun u w i member => ?_
      retire_old := fun i member => ?_
      destroy_old := fun i member => ?_
      scans := fun u ptr iret tid isScan => ?_ }
  · rw [mem] at member
    rw [List.mem_singleton.mp member, made]
    exact Nat.zero_lt_one
  · have ltI := aliveI.1
    have ltJ := aliveJ.1
    omega
  · rw [chain] at member
    rw [List.mem_singleton.mp member, made]
    exact Nat.zero_lt_one
  · rw [next] at link
    cases link
  · rw [task] at isGuard
    cases isGuard
  · rw [own] at has
    cases has
  · rw [own] at has
    cases has
  · rw [retired] at member
    cases member
  · rw [retired] at member
    cases member
  · rw [mem] at member
    simp at member
  · rw [mem] at member
    simp at member
  · rw [task] at isScan
    cases isScan

end Heap

end Elcrq.Concurrent.Hazard
