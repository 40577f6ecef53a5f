import Elcrq.Malloc.Chunks

/-! # Threads that allocate and free

Every thread keeps two lists of free chunks of each class. `malloc_small` takes from
them and refills them from the pages of the class when they are empty; `free` puts
chunks on them and flushes one of them to the pages when both are full. A refill and a
flush hold the lock of the class; `valloc` and the part of `free` for extents hold the
lock of the pages for their whole time.

One step is what a thread does between two points where another thread could tell the
difference: a call up to the first lock of a class, one round of a loop under such a
lock, one call of `valloc`, one `free` of an extent. A thread at a lock that another
one holds waits; how it waits is left out.

`live` and `lost` are no part of the program's memory. `live` holds the blocks that the
program has, with their sizes; `lost` the lists that a refill has dropped. -/

set_option autoImplicit false

namespace Elcrq.Malloc

universe u

/-- `struct localfree`. -/
structure LocalFree where
  free : ℕ
  aux : ℕ
  count : ℕ
  target : ℕ

/-- Who has called `flush_to_global_freelist`: `free`, which still has a chunk to put on a list, or
`shm_fini`. -/
inductive Caller
  | free (old : ℕ)
  | fini

inductive Pc
  | idle
  /-- Before `LOCK(l)` in `malloc_small`. -/
  | lockRefill (l : ℕ)
  /-- In the loop of `malloc_small`, with `want` rounds to go and the list `fl` so far. -/
  | refill (l want fl : ℕ)
  /-- In the same round, with the page `pn` from `valloc`. -/
  | fresh (l want fl pn : ℕ)
  /-- Before `LOCK(l)` in `flush_to_global_freelist`. -/
  | lockFlush (l cp cp2 : ℕ) (k : Caller)
  | flush (l cp cp2 : ℕ) (k : Caller)
  /-- In the last loop of `flush_to_global_freelist`. -/
  | release (l : ℕ) (k : Caller)
  /-- In the same round, before the `free` of the page `pn`. -/
  | freePage (l pn : ℕ) (k : Caller)
  /-- In the loop of `shm_fini`. -/
  | fini (l : ℕ)

structure State (τ : Type u) where
  shared : Shared
  lock : ℕ → Option τ
  lists : τ → ℕ → LocalFree
  pc : τ → Pc
  live : List (ℕ × ℕ)
  lost : List ℕ

/-- What a step of a thread comes to: a new state, waiting for a lock, or the end of the program at a
failed assertion. -/
inductive Outcome (τ : Type u)
  | next (s : State τ)
  | wait
  | stop

variable {τ : Type u} [DecidableEq τ]

namespace State

def setHeap (s : State τ) (h : Heap) : State τ := { s with shared := { s.shared with heap := h } }

def setLists (s : State τ) (t : τ) (l : ℕ) (f : LocalFree) : State τ :=
  { s with lists := Function.update s.lists t (Function.update (s.lists t) l f) }

def setPc (s : State τ) (t : τ) (pc : Pc) : State τ := { s with pc := Function.update s.pc t pc }

def setLock (s : State τ) (l : ℕ) (t : Option τ) : State τ :=
  { s with lock := Function.update s.lock l t }

/-- The end of `malloc_small`: the program gets the first chunk of the list. -/
def pop (s : State τ) (t : τ) (l : ℕ) : State τ :=
  let f := s.lists t l
  let new := f.free
  { s.setLists t l { f with free := s.shared.next new, count := (f.count + (2 ^ 16 - 1)) % 2 ^ 16 } with
    live := (new, size l) :: s.live }

/-- The end of `free` for a chunk. -/
def push (s : State τ) (t : τ) (l old : ℕ) : State τ :=
  let f := s.lists t l
  { s.setLists t l { f with free := old, count := (f.count + 1) % 2 ^ 16 } with
    shared := s.shared.setNext old f.free }

/-- The part of `free` that empties the first list into the second. -/
def rotate (s : State τ) (t : τ) (l : ℕ) : State τ :=
  let f := s.lists t l
  s.setLists t l { f with aux := f.free, free := 0, count := 0 }

/-- `malloc_small`, up to the lock if it needs one. -/
def mallocSmall (s : State τ) (t : τ) (l : ℕ) : State τ :=
  let f := s.lists t l
  if f.free ≠ 0 then s.pop t l
  else if f.aux ≠ 0 then
    (s.setLists t l { f with free := f.aux, aux := 0, count := f.target }).pop t l
  else
    (s.setLists t l { f with target := if f.target = 0 then target l else f.target }).setPc t
      (.lockRefill l)

/-- The part of `free` for a chunk, up to the lock if it needs one. -/
def freeChunk (s : State τ) (t : τ) (l old : ℕ) : State τ :=
  let f := s.lists t l
  if f.count = f.target then
    if f.aux ≠ 0 then (s.setLists t l { f with aux := 0 }).setPc t (.lockFlush l f.aux 0 (.free old))
    else (s.rotate t l).push t l old
  else s.push t l old

/-- What follows `flush_to_global_freelist`. -/
def finish (s : State τ) (t : τ) (l : ℕ) : Caller → State τ
  | .free old => ((s.rotate t l).push t l old).setPc t .idle
  | .fini =>
      (s.setLists t l { s.lists t l with free := 0, aux := 0, count := 0 }).setPc t (.fini (l + 1))

end State

/-- One step of a thread inside a call. -/
def advance (os : ℕ → Bool) (s : State τ) (t : τ) : Outcome τ :=
  match s.pc t with
  | .idle => .wait
  | .lockRefill l =>
      match s.lock l with
      | some _ => .wait
      | none => .next ((s.setLock l (some t)).setPc t (.refill l (s.lists t l).target 0))
  | .refill l 0 fl =>
      let f := s.lists t l
      let s := s.setLists t l { f with free := fl, count := f.target }
      .next (((s.setLock l none).setPc t .idle).pop t l)
  | .refill l (want + 1) fl =>
      if s.shared.freechunks l = 0 then
        match valloc os s.shared.heap pageSize with
        | none => .stop
        | some (new, h) =>
            if new = 0 then
              .next { ((s.setHeap h).setLock l none).setPc t .idle with lost := fl :: s.lost }
            else .next ((s.setHeap h).setPc t (.fresh l (want + 1) fl new))
      else
        match takeChunk s.shared l fl with
        | none => .stop
        | some (new, m) => .next ({ s with shared := m }.setPc t (.refill l want new))
  | .fresh l want fl pn =>
      .next ({ s with shared := newPage s.shared l pn }.setPc t (.refill l want fl))
  | .lockFlush l cp cp2 k =>
      match s.lock l with
      | some _ => .wait
      | none =>
          .next ((s.setLock l (some t)).setPc t (if cp = 0 then .flush l cp2 0 k else .flush l cp cp2 k))
  | .flush l cp cp2 k =>
      if cp = 0 then
        match sortPages s.shared l with
        | none => .stop
        | some m => .next ({ s with shared := m }.setPc t (.release l k))
      else
        let tmp := s.shared.next cp
        .next ({ s with shared := putChunk s.shared l cp }.setPc t
          (if tmp = 0 then .flush l cp2 0 k else .flush l tmp cp2 k))
  | .release l k =>
      let pn := s.shared.freechunks l
      if pn ≠ 0 ∧ (s.shared.heap.desc pn).count < 0 then
        .next ({ s with shared := unlinkPage s.shared l }.setPc t (.freePage l pn k))
      else .next ((s.setLock l none).finish t l k)
  | .freePage l pn k =>
      match freeExtent os s.shared.heap pn with
      | none => .stop
      | some h => .next ((s.setHeap h).setPc t (.release l k))
  | .fini l =>
      let f := s.lists t l
      if l < numSmall then
        if f.aux ≠ 0 ∨ f.free ≠ 0 then .next (s.setPc t (.lockFlush l f.free f.aux .fini))
        else
          .next ((s.setLists t l { f with free := 0, aux := 0, count := 0 }).setPc t (.fini (l + 1)))
      else .next (s.setPc t .idle)

/-- What the program calls. `fork` is a `fork` with a call of `shm_child` in the new process. -/
inductive Call (τ : Type u)
  | malloc (bytes : Word)
  | free (old : ℕ)
  | fini
  | fork (child : τ)

/-- The number of pages that `valloc` takes for so many bytes. -/
def pagesFor (bytes : ℕ) : ℕ := (bytes + pageSize - 1) / pageSize

/-- The first step of a call. -/
def call (os : ℕ → Bool) (s : State τ) (t : τ) : Call τ → Outcome τ
  | .malloc bytes =>
      let l := sizeClass bytes
      if 0 ≤ l then .next (s.mallocSmall t l.toNat)
      else
        match valloc os s.shared.heap bytes.toNat with
        | none => .stop
        | some (new, h) =>
            if new = 0 then .next (s.setHeap h)
            else .next { s.setHeap h with
              live := (new * pageSize, pagesFor bytes.toNat * pageSize) :: s.live }
  | .free old =>
      let l := (s.shared.heap.desc (old / pageSize)).code
      let s := { s with live := s.live.filter (·.1 ≠ old) }
      if old = 0 then .next s
      else if l < numSmall then .next (s.freeChunk t l old)
      else if l = big ∧ old % pageSize = 0 then
        match freeExtent os s.shared.heap (old / pageSize) with
        | none => .stop
        | some h => .next (s.setHeap h)
      else .stop
  | .fini => .next (s.setPc t (.fini 0))
  | .fork child =>
      .next { s with lists := Function.update s.lists child fun l =>
        { s.lists t l with free := 0, aux := 0 } }

/-- The program keeps to the rules: a request is not empty and below 2^31 bytes, a block is freed by the
one who has it, and an extent is not freed when its descriptor does not give its true end. A forked
thread is a new one. -/
def Allowed (s : State τ) (t : τ) : Call τ → Prop
  | .malloc bytes => 0 < bytes.toNat ∧ pagesFor bytes.toNat * pageSize < 2 ^ 31
  | .free old => old = 0 ∨ ∃ n, (old, n) ∈ s.live ∧
      ((s.shared.heap.desc (old / pageSize)).code = big →
        (s.shared.heap.desc (old / pageSize)).page = old / pageSize + n / pageSize)
  | .fini => True
  | .fork child => child ≠ t ∧ s.pc child = .idle ∧
      ∀ l, (s.lists child l).free = 0 ∧ (s.lists child l).aux = 0

/-- The operating system does not let the break grow beyond one gigabyte. -/
def Grants (os : ℕ → Bool) : Prop := ∀ b, os b = true → b ≤ 2 ^ 18 * pageSize

def init : State τ where
  shared := ⟨msetup, fun _ => 0, fun _ => 0⟩
  lock _ := none
  lists _ _ := ⟨0, 0, 0, 0⟩
  pc _ := .idle
  live := []
  lost := []

/-- The states of a program that makes calls of the kinds in `uses`, and writes what it likes into the
blocks that it has. -/
inductive Reachable (uses : Call τ → Prop) : State τ → Prop
  | init : Reachable uses init
  | call {os : ℕ → Bool} {s s' : State τ} {t : τ} {c : Call τ} : Reachable uses s → Grants os →
      s.pc t = .idle → uses c → Allowed s t c → call os s t c = .next s' → Reachable uses s'
  | step {os : ℕ → Bool} {s s' : State τ} {t : τ} : Reachable uses s → Grants os →
      advance os s t = .next s' → Reachable uses s'
  | write {s : State τ} {a n b v : ℕ} : Reachable uses s → (a, n) ∈ s.live → a ≤ b → b < a + n →
      Reachable uses { s with shared := s.shared.setNext b v }

/-! ### Runs of one thread -/

variable {uses : Call τ → Prop} {os : ℕ → Bool} {s : State τ} {t : τ}

namespace State

/-- The state after a call, or the same one if the call ends the program. -/
def called (os : ℕ → Bool) (s : State τ) (t : τ) (c : Call τ) : State τ :=
  match call os s t c with
  | .next s' => s'
  | _ => s

/-- The state after up to `n` steps of a thread that stops when it has to wait. -/
def ran (os : ℕ → Bool) (t : τ) : ℕ → State τ → State τ
  | 0, s => s
  | n + 1, s =>
      match advance os s t with
      | .next s' => s'.ran os t n
      | _ => s

end State

theorem Reachable.called (reach : Reachable uses s) (grants : Grants os) {c : Call τ}
    (idle : s.pc t = .idle) (use : uses c) (allowed : Allowed s t c) :
    Reachable uses (s.called os t c) := by
  rw [State.called]
  cases step : Malloc.call os s t c with
  | next s' => exact reach.call grants idle use allowed step
  | wait => exact reach
  | stop => exact reach

theorem Reachable.ran (grants : Grants os) (n : ℕ) (reach : Reachable uses s) :
    Reachable uses (s.ran os t n) := by
  induction n generalizing s with
  | zero => exact reach
  | succ n ih =>
      rw [State.ran]
      cases step : advance os s t with
      | next s' => exact ih (reach.step grants step)
      | wait => exact reach
      | stop => exact reach

end Elcrq.Malloc
