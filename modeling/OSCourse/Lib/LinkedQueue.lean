import OSCourse.Lib.Run

/-!
# Queues that are linked through their nodes

A queue is a header with a head, a tail and a counter of `w` bits, and nodes on a heap with links in
both directions.  Nodes are put in at the head and taken out at the tail.  A result `none` of an
operation is a NULL dereference.

* `enqueue`, `dequeue`, `scan` — the operations on the heap.
* `Path` — what is visited when links are followed to their end.
* `Linked s l` — the queue consists of the nodes `l`, from the head on; `enqueue_spec` and
  `dequeue_spec` say what an operation makes of it, `scan_spec` what a search finds.
* `QueueStep` — the queue in use; the nodes that are not in it hold anything.
* `queueInv_run` — in a run that never has `2 ^ w` nodes in the queue, it is a FIFO queue
  (`QueueInv.fifo`) on which no operation fails (`QueueInv.usable`).
-/

set_option autoImplicit false

namespace LinkedQueue

open Transition

/-- A node of the heap; `none` is NULL. -/
structure Node (P D : Type) where
  data : D
  next : Option P
  prev : Option P
  deriving DecidableEq, Repr

structure Header (w : Nat) (P : Type) where
  head : Option P
  tail : Option P
  count : BitVec w
  deriving DecidableEq, Repr

structure Store (w : Nat) (P D : Type) where
  queue : Header w P
  node : P → Node P D

/-- The header of an empty queue. -/
def Header.empty (w : Nat) (P : Type) : Header w P := ⟨none, none, 0⟩

section

variable {w : Nat} {P D : Type}

/-! ## The operations -/

section

variable [DecidableEq P]

/-- The node becomes the new head, and its data are changed by `f`. -/
def enqueue (f : D → D) (new_entry : P) (s : Store w P D) : Option (Store w P D) :=
  let node := Function.update s.node new_entry ⟨f (s.node new_entry).data, s.queue.head, none⟩
  if s.queue.count = 0 then
    some ⟨⟨some new_entry, some new_entry, s.queue.count + 1⟩, node⟩
  else
    match s.queue.head with
    | none => none
    | some head =>
      some ⟨⟨some new_entry, s.queue.tail, s.queue.count + 1⟩,
        Function.update node head { node head with prev := some new_entry }⟩

/-- The node at the tail, and the queue without it. -/
def dequeue (s : Store w P D) : Option (Option P × Store w P D) :=
  let removed_entry := s.queue.tail
  if s.queue.count = 1 then some (removed_entry, ⟨⟨none, none, s.queue.count - 1⟩, s.node⟩)
  else
    match s.queue.tail with
    | none => none
    | some tail =>
      match (s.node tail).prev with
      | none => none
      | some tail =>
        some (removed_entry, ⟨⟨s.queue.head, some tail, s.queue.count - 1⟩,
          Function.update s.node tail { s.node tail with next := none }⟩)

end

/-- Follows `next` until a node passes the test; `none` when the fuel is used up before. -/
def scan (node : P → Node P D) (test : D → Bool) : Nat → Option P → Option Bool
  | 0, _ => none
  | _ + 1, none => some false
  | fuel + 1, some tmp =>
    if test (node tmp).data then some true else scan node test fuel (node tmp).next

/-! ## Following links -/

/-- From `first`, the links lead through `l` and then to NULL. -/
def Path (link : P → Option P) : Option P → List P → Prop
  | none, [] => True
  | some p, q :: l => p = q ∧ Path link (link p) l
  | _, _ => False

variable {link link' : P → Option P} {first : Option P} {l m r r' : List P} {a : P}

@[simp] theorem path_nil : Path link first [] ↔ first = none := by
  cases first <;> simp [Path]

@[simp] theorem path_cons : Path link first (a :: l) ↔ first = some a ∧ Path link (link a) l := by
  cases first with
  | none => simp [Path]
  | some p =>
    simp only [Path, Option.some.injEq]
    constructor
    · rintro ⟨rfl, h⟩; exact ⟨rfl, h⟩
    · rintro ⟨rfl, h⟩; exact ⟨rfl, h⟩

theorem Path.congr (hpath : Path link first l) (hsame : ∀ p ∈ l, link' p = link p) :
    Path link' first l := by
  induction l generalizing first with
  | nil => simpa using hpath
  | cons a l ih =>
    rw [path_cons] at hpath ⊢
    refine ⟨hpath.1, ?_⟩
    rw [hsame a (List.mem_cons_self ..)]
    exact ih hpath.2 fun p hp => hsame p (List.mem_cons_of_mem a hp)

/-- A path that goes on in another way after one of its nodes. -/
theorem Path.splice (hpath : Path link first (m ++ a :: r)) (hsame : ∀ p ∈ m, link' p = link p)
    (hrest : Path link' (link' a) r') : Path link' first (m ++ a :: r') := by
  induction m generalizing first with
  | nil =>
    rw [List.nil_append, path_cons] at hpath ⊢
    exact ⟨hpath.1, hrest⟩
  | cons b m ih =>
    rw [List.cons_append, path_cons] at hpath ⊢
    refine ⟨hpath.1, ?_⟩
    rw [hsame b (List.mem_cons_self ..)]
    exact ih hpath.2 fun p hp => hsame p (List.mem_cons_of_mem b hp)

/-! ## The queue that a heap represents -/

/-- The queue consists of the nodes `l`, from the head on. -/
structure Linked (s : Store w P D) (l : List P) : Prop where
  nodup : l.Nodup
  next : Path (fun p => (s.node p).next) s.queue.head l
  prev : Path (fun p => (s.node p).prev) s.queue.tail l.reverse
  count : s.queue.count = BitVec.ofNat w l.length

variable {s s' : Store w P D}

theorem linked_empty (node : P → Node P D) : Linked ⟨Header.empty w P, node⟩ [] :=
  ⟨List.nodup_nil, by simp [Header.empty], by simp [Header.empty], rfl⟩

theorem ofNat_eq_iff {a b : Nat} (ha : a < 2 ^ w) (hb : b < 2 ^ w) :
    BitVec.ofNat w a = BitVec.ofNat w b ↔ a = b := by
  constructor
  · intro h
    have hnat := congrArg BitVec.toNat h
    rwa [BitVec.toNat_ofNat, BitVec.toNat_ofNat, Nat.mod_eq_of_lt ha, Nat.mod_eq_of_lt hb] at hnat
  · rintro rfl
    rfl

/-- The counter tells an empty queue from others as long as it has not wrapped. -/
theorem Linked.count_eq_zero (L : Linked s l) (hlt : l.length < 2 ^ w) :
    s.queue.count = 0 ↔ l = [] := by
  rw [L.count, ← List.length_eq_zero_iff]
  exact ofNat_eq_iff hlt (Nat.two_pow_pos w)

theorem Linked.count_eq_one (L : Linked s l) (hlt : l.length < 2 ^ w) (hne : l ≠ []) :
    s.queue.count = 1 ↔ l.length = 1 := by
  have hpos := List.length_pos_of_ne_nil hne
  rw [L.count]
  exact ofNat_eq_iff (b := 1) hlt (Nat.lt_of_le_of_lt hpos hlt)

theorem Linked.head_eq_none (L : Linked s l) : s.queue.head = none ↔ l = [] := by
  have hnext := L.next
  cases l with
  | nil => rw [path_nil] at hnext; simp [hnext]
  | cons a l => rw [path_cons] at hnext; simp [hnext.1]

theorem Linked.tail_eq_none (L : Linked s l) : s.queue.tail = none ↔ l = [] := by
  have hprev := L.prev
  rw [← List.reverse_eq_nil_iff]
  cases hl : l.reverse with
  | nil => rw [hl, path_nil] at hprev; simp [hprev]
  | cons a m => rw [hl, path_cons] at hprev; simp [hprev.1]

section

variable [DecidableEq P]

/-- **A node that is not in the queue becomes its head**, whatever its links were. -/
theorem enqueue_spec (L : Linked s l) (hlt : l.length < 2 ^ w) (f : D → D) {p : P} (hp : p ∉ l) :
    ∃ s', enqueue f p s = some s' ∧ Linked s' (p :: l) ∧
      (s'.node p).data = f (s.node p).data ∧ ∀ q, q ≠ p → (s'.node q).data = (s.node q).data := by
  have hcount : s.queue.count + 1 = BitVec.ofNat w (p :: l).length := by
    rw [L.count, List.length_cons, BitVec.ofNat_add]
    rfl
  cases l with
  | nil =>
    have hzero := (L.count_eq_zero hlt).2 rfl
    refine ⟨_, by rw [enqueue, if_pos hzero], ⟨List.nodup_singleton p, ?_, ?_, hcount⟩, ?_, ?_⟩
    · rw [path_cons, path_nil]
      refine ⟨rfl, ?_⟩
      simp only [Function.update_self]
      exact L.head_eq_none.2 rfl
    · simp
    · simp
    · intro q hq
      simp [hq]
  | cons head rest =>
    have hne : s.queue.count ≠ 0 := by
      rw [Ne, L.count_eq_zero hlt]
      simp
    have hhead := (path_cons.1 L.next).1
    have hph : p ≠ head := fun h => hp (h ▸ List.mem_cons_self ..)
    have hrest : head ∉ rest := (List.nodup_cons.1 L.nodup).1
    refine ⟨_, by rw [enqueue, if_neg hne, hhead], ⟨List.nodup_cons.2 ⟨hp, L.nodup⟩, ?_, ?_, hcount⟩,
      by simp [hph], ?_⟩
    · rw [path_cons]
      refine ⟨rfl, ?_⟩
      simp only [Function.update_of_ne hph, Function.update_self, ← hhead]
      apply L.next.congr
      intro q hq
      have hqp : q ≠ p := fun h => hp (h ▸ hq)
      by_cases hqh : q = head
      · simp [hqh, Ne.symm hph]
      · simp [hqh, hqp]
    · -- only the old head has a new link back
      have hprev := L.prev
      rw [List.reverse_cons] at hprev
      rw [List.reverse_cons, List.reverse_cons, List.append_assoc]
      refine hprev.splice (fun q hq => ?_) ?_
      · have hq : q ∈ rest := List.mem_reverse.1 hq
        have hqp : q ≠ p := fun h => hp (h ▸ List.mem_cons_of_mem head hq)
        have hqh : q ≠ head := fun h => hrest (h ▸ hq)
        simp [hqp, hqh]
      · simp [hph]
    · intro q hq
      by_cases hqh : q = head
      · subst hqh; simp [hq]
      · simp [hq, hqh]

/-- **The node at the tail leaves the queue.** -/
theorem dequeue_spec {p : P} (L : Linked s (l ++ [p])) (hlt : (l ++ [p]).length < 2 ^ w) :
    ∃ s', dequeue s = some (some p, s') ∧ Linked s' l ∧ ∀ q, (s'.node q).data = (s.node q).data := by
  have hne : l ++ [p] ≠ [] := by simp
  have hprev := L.prev
  rw [List.reverse_append, List.reverse_singleton, List.singleton_append, path_cons] at hprev
  obtain ⟨htail, hprev⟩ := hprev
  have hcount : s.queue.count - 1 = BitVec.ofNat w l.length := by
    rw [L.count, List.length_append, List.length_singleton, BitVec.ofNat_add]
    exact BitVec.add_sub_cancel ..
  rcases List.eq_nil_or_concat' l with rfl | ⟨m, last, rfl⟩
  · have hone := (L.count_eq_one hlt hne).2 rfl
    refine ⟨⟨⟨none, none, s.queue.count - 1⟩, s.node⟩, by rw [dequeue, if_pos hone, htail],
      ⟨List.nodup_nil, ?_, ?_, hcount⟩, fun _ => rfl⟩
    · simp
    · simp
  · have hmany : s.queue.count ≠ 1 := by
      rw [Ne, L.count_eq_one hlt hne]
      simp
    rw [List.reverse_append, List.reverse_singleton, List.singleton_append, path_cons] at hprev
    have hlast : last ∉ m := by
      have hnodup := (List.nodup_append.1 L.nodup).1
      have hdisj := (List.nodup_append.1 hnodup).2.2
      intro h
      exact hdisj last h last (List.mem_singleton_self last) rfl
    refine ⟨⟨⟨s.queue.head, some last, s.queue.count - 1⟩,
      Function.update s.node last { s.node last with next := none }⟩,
      by rw [dequeue, if_neg hmany, htail]; simp only [hprev.1], ⟨?_, ?_, ?_, hcount⟩, ?_⟩
    · exact (List.nodup_append.1 L.nodup).1
    · -- the new tail has no successor
      have hnext := L.next
      rw [List.append_assoc, List.singleton_append] at hnext
      refine hnext.splice (fun q hq => ?_) ?_
      · have hql : q ≠ last := fun h => hlast (h ▸ hq)
        simp [hql]
      · simp
    · rw [List.reverse_append, List.reverse_singleton, List.singleton_append, path_cons]
      refine ⟨rfl, ?_⟩
      simp only [Function.update_self]
      apply hprev.2.congr
      intro q hq
      have hql : q ≠ last := fun h => hlast (h ▸ List.mem_reverse.1 hq)
      simp [hql]
    · intro q
      by_cases hql : q = last
      · subst hql; simp
      · simp [hql]

end

/-- **A search ends, and finds what the nodes of the queue hold.** -/
theorem scan_spec {node : P → Node P D} {first : Option P}
    (hpath : Path (fun p => (node p).next) first l) (test : D → Bool) {fuel : Nat}
    (hfuel : l.length < fuel) : scan node test fuel first = some (l.any fun p => test (node p).data) := by
  induction l generalizing first fuel with
  | nil =>
    obtain ⟨fuel, rfl⟩ : ∃ k, fuel = k + 1 := ⟨fuel - 1, by omega⟩
    rw [path_nil] at hpath
    rw [hpath, scan]
    rfl
  | cons a l ih =>
    obtain ⟨fuel, rfl⟩ : ∃ k, fuel = k + 1 := ⟨fuel - 1, by omega⟩
    rw [path_cons] at hpath
    rw [hpath.1, scan, List.any_cons]
    cases ha : test (node a).data with
    | true => rw [if_pos rfl, Bool.true_or]
    | false =>
      rw [if_neg Bool.false_ne_true, Bool.false_or]
      rw [List.length_cons] at hfuel
      exact ih hpath.2 (by omega)

/-! ## The queue in use -/

inductive Op (P : Type) where
  | enqueue (new_entry : P)
  /-- with the node that is returned -/
  | dequeue (removed_entry : Option P)
  /-- a node that is not in the queue is used for something else -/
  | other (p : P)
  deriving DecidableEq, Repr

/-- A queue, and the nodes that were put in and not taken out since, the last one first. -/
structure InUse (w : Nat) (P D : Type) where
  store : Store w P D
  queued : List P

/-- The queue before its first use, on any heap. -/
def InUse.start (node : P → Node P D) : InUse w P D := ⟨⟨Header.empty w P, node⟩, []⟩

/-- There is room for one more node in what the counter can count. -/
def HasRoom (t : InUse w P D) (op : Op P) : Prop :=
  match op with
  | .enqueue _ => t.queued.length + 1 < 2 ^ w
  | _ => True

/-- The nodes put in, in this order. -/
def enqueued : List (Op P) → List P
  | [] => []
  | .enqueue p :: h => enqueued h ++ [p]
  | _ :: h => enqueued h

/-- The nodes taken out, in this order. -/
def dequeued : List (Op P) → List P
  | [] => []
  | .dequeue r :: h => dequeued h ++ r.toList
  | _ :: h => dequeued h

/-- What a FIFO queue is, after the operations `h`. -/
structure Fifo (h : List (Op P)) (t : InUse w P D) : Prop where
  /-- following `next` from the head visits the queued nodes, the last one first -/
  next : Path (fun p => (t.store.node p).next) t.store.queue.head t.queued
  /-- following `prev` from the tail visits them in the opposite order -/
  prev : Path (fun p => (t.store.node p).prev) t.store.queue.tail t.queued.reverse
  nodup : t.queued.Nodup
  count : t.store.queue.count.toNat = t.queued.length
  head : t.store.queue.head = none ↔ t.store.queue.count = 0
  tail : t.store.queue.tail = none ↔ t.store.queue.count = 0
  /-- the nodes come out in the order in which they were put in -/
  order : dequeued h ++ t.queued.reverse = enqueued h

/-- What every operation keeps. -/
structure QueueInv (h : List (Op P)) (t : InUse w P D) : Prop where
  linked : Linked t.store t.queued
  room : t.queued.length < 2 ^ w
  order : dequeued h ++ t.queued.reverse = enqueued h

variable {t t' : InUse w P D} {h : List (Op P)} {op : Op P}

theorem QueueInv.fifo (I : QueueInv h t) : Fifo h t where
  next := I.linked.next
  prev := I.linked.prev
  nodup := I.linked.nodup
  count := by rw [I.linked.count, BitVec.toNat_ofNat, Nat.mod_eq_of_lt I.room]
  head := by rw [I.linked.head_eq_none, I.linked.count_eq_zero I.room]
  tail := by rw [I.linked.tail_eq_none, I.linked.count_eq_zero I.room]
  order := I.order

theorem queueInv_start (node : P → Node P D) :
    QueueInv [] (InUse.start node : InUse w P D) :=
  ⟨linked_empty node, Nat.two_pow_pos w, rfl⟩

/-! ## Runs -/

variable [DecidableEq P]

/-- The operations are used on nodes that are not in the queue, and on a queue that is not empty. -/
inductive QueueStep (t : InUse w P D) : Op P → InUse w P D → Prop
  | enqueue {f : D → D} {p : P} {s' : Store w P D} : p ∉ t.queued → enqueue f p t.store = some s' →
      QueueStep t (.enqueue p) ⟨s', p :: t.queued⟩
  | dequeue {r : Option P} {s' : Store w P D} : t.queued ≠ [] → dequeue t.store = some (r, s') →
      QueueStep t (.dequeue r) ⟨s', t.queued.filter fun p => some p ≠ r⟩
  | other {p : P} {x : Node P D} : p ∉ t.queued → QueueStep t (.other p)
      { t with store := { t.store with node := Function.update t.store.node p x } }

/-- A node outside the queue may hold anything. -/
theorem Linked.other {l : List P} {s : Store w P D} (L : Linked s l) {p : P} (hp : p ∉ l)
    (x : Node P D) : Linked { s with node := Function.update s.node p x } l where
  nodup := L.nodup
  next := L.next.congr fun q hq => by
    have hqp : q ≠ p := fun h => hp (h ▸ hq)
    simp only [Function.update_of_ne hqp]
  prev := L.prev.congr fun q hq => by
    have hqp : q ≠ p := fun h => hp (h ▸ List.mem_reverse.1 hq)
    simp only [Function.update_of_ne hqp]
  count := L.count

/-- The data of one node change. -/
def Store.modify (s : Store w P D) (p : P) (f : D → D) : Store w P D :=
  { s with node := Function.update s.node p { s.node p with data := f (s.node p).data } }

theorem Store.modify_self (s : Store w P D) (p : P) (f : D → D) :
    ((s.modify p f).node p).data = f (s.node p).data := by
  simp [Store.modify]

theorem Store.modify_of_ne (s : Store w P D) {p q : P} (f : D → D) (hq : q ≠ p) :
    (s.modify p f).node q = s.node q := by
  simp [Store.modify, hq]

/-- The links stay as they are, also of a node in the queue. -/
theorem Linked.modify {l : List P} {s : Store w P D} (L : Linked s l) (p : P) (f : D → D) :
    Linked (s.modify p f) l := by
  have hlinks : ∀ q, ((s.modify p f).node q).next = (s.node q).next ∧
      ((s.modify p f).node q).prev = (s.node q).prev := by
    intro q
    rcases eq_or_ne q p with rfl | hq
    · simp [Store.modify]
    · rw [Store.modify_of_ne s f hq]
      exact ⟨rfl, rfl⟩
  exact ⟨L.nodup, L.next.congr fun q _ => (hlinks q).1, L.prev.congr fun q _ => (hlinks q).2, L.count⟩

/-- What a `dequeue` does to a queue that is not empty. -/
theorem QueueInv.dequeue_cases (I : QueueInv h t) (hne : t.queued ≠ []) :
    ∃ l p s', t.queued = l ++ [p] ∧ dequeue t.store = some (some p, s') ∧ Linked s' l ∧
      t.queued.filter (fun q => some q ≠ some p) = l := by
  obtain ⟨l, p, hl⟩ : ∃ l p, t.queued = l ++ [p] :=
    ⟨_, _, (List.dropLast_append_getLast hne).symm⟩
  have L := I.linked
  have hroom := I.room
  rw [hl] at L hroom
  obtain ⟨s', hs', L', -⟩ := dequeue_spec L hroom
  refine ⟨l, p, s', hl, hs', L', ?_⟩
  have hmem : p ∉ l := fun h => (List.nodup_append.1 L.nodup).2.2 p h p (List.mem_singleton_self p) rfl
  rw [hl, List.filter_append, List.filter_eq_self.2]
  · simp
  · intro q hq
    have hqp : q ≠ p := fun h => hmem (h ▸ hq)
    simpa using hqp

/-- No operation meets a NULL that it follows. -/
structure Usable (t : InUse w P D) : Prop where
  enqueue (f : D → D) (p : P) : p ∉ t.queued → ∃ s', enqueue f p t.store = some s'
  dequeue : t.queued ≠ [] → ∃ r s', dequeue t.store = some (r, s')

theorem QueueInv.usable (I : QueueInv h t) : Usable t where
  enqueue f p hp := by
    obtain ⟨s', hs', -⟩ := enqueue_spec I.linked I.room f hp
    exact ⟨s', hs'⟩
  dequeue hne := by
    obtain ⟨l, p, s', -, hs', -⟩ := I.dequeue_cases hne
    exact ⟨some p, s', hs'⟩

theorem queueInv_step (I : QueueInv h t) (hroom : HasRoom t op) (hs : QueueStep t op t') :
    QueueInv (op :: h) t' := by
  cases hs with
  | enqueue hp hs =>
    obtain ⟨s', hs', L', -⟩ := enqueue_spec I.linked I.room _ hp
    cases hs.symm.trans hs'
    refine ⟨L', by rwa [List.length_cons], ?_⟩
    change dequeued h ++ (_ :: t.queued).reverse = enqueued h ++ [_]
    rw [List.reverse_cons, ← List.append_assoc, I.order]
  | dequeue hne hs =>
    obtain ⟨l, p, s', hl, hs', L', hfilter⟩ := I.dequeue_cases hne
    cases hs.symm.trans hs'
    have hlen := I.room
    have horder := I.order
    rw [hl] at hlen horder
    rw [hfilter]
    refine ⟨L', ?_, ?_⟩
    · rw [List.length_append] at hlen
      exact Nat.lt_of_le_of_lt (Nat.le_add_right ..) hlen
    · rw [List.reverse_append, List.reverse_singleton, ← List.append_assoc] at horder
      exact horder
  | other hp => exact ⟨I.linked.other hp _, I.room, I.order⟩

/-- The steps of a user of the queue are given by a relation of its own. -/
theorem queueInv_run {R : InUse w P D → Op P → InUse w P D → Prop}
    (hsub : ∀ s a s', R s a s' → QueueStep s a s') {node : P → Node P D}
    (hr : Run R (InUse.start node) h t) (hroom : Run.EachStep R (InUse.start node) HasRoom h) :
    QueueInv h t :=
  hr.historyInvariantOn (queueInv_start node)
    (fun _ _ _ _ I hq hs => queueInv_step I hq (hsub _ _ _ hs)) hroom

theorem queued_le_length {node : P → Node P D} (hr : Run QueueStep (InUse.start node) h t) :
    t.queued.length ≤ h.length := by
  induction hr with
  | nil => exact Nat.le_refl 0
  | step _ hs ih =>
    rw [List.length_cons]
    cases hs with
    | enqueue _ _ => exact Nat.succ_le_succ ih
    | dequeue _ _ => exact Nat.le_succ_of_le ((List.length_filter_le ..).trans ih)
    | other _ => exact Nat.le_succ_of_le ih

/-- A short run has room all the way. -/
theorem hasRoom_of_length {R : InUse w P D → Op P → InUse w P D → Prop}
    (hsub : ∀ s a s', R s a s' → QueueStep s a s') (node : P → Node P D) (hlen : h.length < 2 ^ w) :
    Run.EachStep R (InUse.start node) HasRoom h := by
  intro op h' hsuf t hr
  have hle := queued_le_length (hr.mono hsub)
  have hlt : h'.length + 1 < 2 ^ w := Nat.lt_of_le_of_lt hsuf.length_le hlen
  cases op with
  | enqueue p => exact Nat.lt_of_le_of_lt (Nat.succ_le_succ hle) hlt
  | dequeue r => trivial
  | other p => trivial

/-- A counter that can count all nodes there are has room for every node outside the queue. -/
theorem QueueInv.hasRoom_of_card [Fintype P] (hcard : Fintype.card P < 2 ^ w) (I : QueueInv h t)
    (hs : QueueStep t op t') : HasRoom t op := by
  cases hs with
  | enqueue hp hs =>
    have hnodup := List.nodup_cons.2 ⟨hp, I.linked.nodup⟩
    exact Nat.lt_of_le_of_lt hnodup.length_le_card hcard
  | dequeue _ _ => trivial
  | other _ => trivial

theorem queueInv_run_of_card [Fintype P] (hcard : Fintype.card P < 2 ^ w) {node : P → Node P D}
    (hr : Run QueueStep (InUse.start node) h t) : QueueInv h t :=
  hr.historyInvariant (queueInv_start node) fun _ _ _ _ I hs =>
    queueInv_step I (I.hasRoom_of_card hcard hs) hs

end

end LinkedQueue
