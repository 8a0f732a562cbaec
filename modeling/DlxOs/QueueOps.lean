-- Any sequence of calls of the queue routines, from the initialization of the
-- module on. The queues that nobody has initialized yet may hold anything; the
-- others are lists, and each call does to the lists what its comment says.
import DlxOs.QueueLists

namespace dlxos

open Function

/-! ## The calls -/

inductive QueueOp (Q O : Type) where
  | init (q : Q)
  | alloc (obj : O)
  | insertFirst (q : Q) (l : LinkId)
  | insertLast (q : Q) (l : LinkId)
  | insertAfter (q : Q) (after : Option LinkId) (l : LinkId)
  | insertBefore (q : Q) (before : Option LinkId) (l : LinkId)
  | remove (l : LinkId)
  | moveAfter (q : Q) (after l : Option LinkId)

inductive Answer where
  | fail
  | success
  | link (l : LinkId)
deriving DecidableEq

variable {Q O : Type}

/-- The return value of a routine. -/
def answer (r : Nat × Store Q O) : Answer × Store Q O :=
  (if r.1 = QUEUE_FAIL then .fail else .success, r.2)

def QueueOp.run [DecidableEq Q] (s : Store Q O) : QueueOp Q O → Answer × Store Q O
  | .init q => answer (AQueueInit (.client q) s)
  | .alloc obj => match AQueueAllocLink obj s with
    | (none, s) => (.fail, s)
    | (some l, s) => (.link l, s)
  | .insertFirst q l => answer (AQueueInsertFirst (.client q) (some l) s)
  | .insertLast q l => answer (AQueueInsertLast (.client q) (some l) s)
  | .insertAfter q after l => answer (AQueueInsertAfter (.client q) after (some l) s)
  | .insertBefore q before l => answer (AQueueInsertBefore (.client q) before (some l) s)
  | .remove l =>
    let (r, _, s) := AQueueRemove (some l) s
    answer (r, s)
  | .moveAfter q after l => answer (AQueueMoveAfter (.client q) after l s)

/-! ## The lists -/

section Lists

variable {α : Type} [DecidableEq α]

def insertAfter (a l : α) : List α → List α
  | [] => []
  | x :: xs => if x = a then x :: l :: xs else x :: insertAfter a l xs

def insertBefore (b l : α) : List α → List α
  | [] => []
  | x :: xs => if x = b then l :: x :: xs else x :: insertBefore b l xs

theorem insertAfter_eq {a l : α} {ys zs : List α} (h : a ∉ ys) :
    insertAfter a l (ys ++ a :: zs) = ys ++ a :: l :: zs := by
  induction ys with
  | nil => simp [insertAfter]
  | cons y ys ih =>
    rw [List.mem_cons, not_or] at h
    simp [insertAfter, Ne.symm h.1, ih h.2]

theorem insertBefore_eq {b l : α} {ys zs : List α} (h : b ∉ ys) :
    insertBefore b l (ys ++ b :: zs) = ys ++ l :: b :: zs := by
  induction ys with
  | nil => simp [insertBefore]
  | cons y ys ih =>
    rw [List.mem_cons, not_or] at h
    simp [insertBefore, Ne.symm h.1, ih h.2]

theorem mem_insertAfter {a l y : α} {xs : List α} (h : a ∈ xs) :
    y ∈ insertAfter a l xs ↔ y = l ∨ y ∈ xs := by
  obtain ⟨ys, zs, rfl, hys⟩ := List.eq_append_cons_of_mem h
  rw [insertAfter_eq hys]
  simp only [List.mem_append, List.mem_cons]
  tauto

theorem mem_insertBefore {b l y : α} {xs : List α} (h : b ∈ xs) :
    y ∈ insertBefore b l xs ↔ y = l ∨ y ∈ xs := by
  obtain ⟨ys, zs, rfl, hys⟩ := List.eq_append_cons_of_mem h
  rw [insertBefore_eq hys]
  simp only [List.mem_append, List.mem_cons]
  tauto

end Lists

/-- The queues as lists: which of them have been initialized, the links that are
out of the pool and on no queue, and the objects. -/
structure ClientQueues (Q O : Type) where
  live : Q → Bool
  lists : QueueRef Q → List LinkId
  out : LinkId → Bool
  object : LinkId → Option O

variable [DecidableEq Q] {s s' : Store Q O} {a a' : ClientQueues Q O}

namespace ClientQueues

/-- After `AQueueModuleInit`: every link is free. -/
def start : ClientQueues Q O where
  live _ := false
  lists := update (fun _ => []) .freeLinks (List.finRange QUEUE_MAX_LINKS)
  out _ := false
  object _ := none

/-- An allocated link goes on a queue, which becomes `xs`. -/
def put (a : ClientQueues Q O) (q : Q) (l : LinkId) (xs : List LinkId) :
    Answer × ClientQueues Q O :=
  (.success, { a with lists := update a.lists (.client q) xs, out := update a.out l false })

/-- A queue is put in a new order. -/
def reorder (a : ClientQueues Q O) (q : Q) (xs : List LinkId) : Answer × ClientQueues Q O :=
  (.success, { a with lists := update a.lists (.client q) xs })

/-- What each call does to the lists. -/
def apply (a : ClientQueues Q O) : QueueOp Q O → Answer × ClientQueues Q O
  | .init q =>
    (.success, { a with live := update a.live q true, lists := update a.lists (.client q) [] })
  | .alloc obj => match a.lists .freeLinks with
    | [] => (.fail, a)
    | l :: ls => (.link l, { a with
      lists := update a.lists .freeLinks ls
      out := update a.out l true
      object := update a.object l (some obj) })
  | .insertFirst q l => a.put q l (l :: a.lists (.client q))
  | .insertLast q l => a.put q l (a.lists (.client q) ++ [l])
  | .insertAfter q none l | .insertBefore q none l =>
    if a.lists (.client q) = [] then a.put q l [l] else (.fail, a)
  | .insertAfter q (some x) l =>
    if x ∈ a.lists (.client q) then a.put q l (insertAfter x l (a.lists (.client q)))
    else (.fail, a)
  | .insertBefore q (some x) l =>
    if x ∈ a.lists (.client q) then a.put q l (insertBefore x l (a.lists (.client q)))
    else (.fail, a)
  | .remove l => (.success, { a with
      lists := update (fun q => (a.lists q).erase l) .freeLinks (a.lists .freeLinks ++ [l]) })
  | .moveAfter _ _ none => (.fail, a)
  | .moveAfter q none (some l) =>
    if a.lists (.client q) = [l] then (.success, a) else (.fail, a)
  | .moveAfter q (some x) (some l) =>
    if l ∉ a.lists (.client q) ∨ x ∉ a.lists (.client q) then (.fail, a)
    else if x = l then (.success, a)
    else if (a.lists (.client q)).getLast? = some l then (.fail, a)
    else a.reorder q (insertAfter x l ((a.lists (.client q)).erase l))

/-- What the callers keep to: a queue is initialized once and before its use, a
link that is inserted is allocated and on no queue, and a link that is removed is
on a queue of a client. -/
def Legal (a : ClientQueues Q O) : QueueOp Q O → Prop
  | .init q => a.live q = false
  | .alloc _ => True
  | .insertFirst q l | .insertLast q l | .insertAfter q _ l | .insertBefore q _ l =>
    a.live q = true ∧ a.out l = true
  | .remove l => ∃ q, l ∈ a.lists (.client q)
  | .moveAfter q _ _ => a.live q = true

end ClientQueues

/-! ## ClientQueues that hold anything -/

def seen (live : Q → Bool) : QueueRef Q → Bool
  | .freeLinks => true
  | .client q => live q

/-- The store with empty headers for the queues that are not live yet. -/
def Store.only (live : Q → Bool) (s : Store Q O) : Store Q O :=
  { s with
    first := fun r => if seen live r then s.first r else none
    last := fun r => if seen live r then s.last r else none
    nitems := fun r => if seen live r then s.nitems r else 0 }

section Only

variable {live : Q → Bool} {r : QueueRef Q} {l : LinkId} {v : Option LinkId}

theorem only_setFirst (h : seen live r = true) :
    (s.setFirst r v).only live = (s.only live).setFirst r v := by
  simp only [Store.only, Store.setFirst, Store.mk.injEq, true_and, and_true]
  funext x
  by_cases hx : x = r
  · simp [hx, h]
  · simp [hx]

theorem only_setLast (h : seen live r = true) :
    (s.setLast r v).only live = (s.only live).setLast r v := by
  simp only [Store.only, Store.setLast, Store.mk.injEq, true_and, and_true]
  funext x
  by_cases hx : x = r
  · simp [hx, h]
  · simp [hx]

theorem only_setNitems {n : Int} (h : seen live r = true) :
    (s.setNitems r n).only live = (s.only live).setNitems r n := by
  simp only [Store.only, Store.setNitems, Store.mk.injEq, true_and]
  funext x
  by_cases hx : x = r
  · simp [hx, h]
  · simp [hx]

omit [DecidableEq Q]

theorem only_first (h : seen live r = true) : (s.only live).first r = s.first r := if_pos h
theorem only_last (h : seen live r = true) : (s.only live).last r = s.last r := if_pos h
theorem only_nitems (h : seen live r = true) : (s.only live).nitems r = s.nitems r := if_pos h

@[simp] theorem only_setNext : (s.setNext l v).only live = (s.only live).setNext l v := rfl
@[simp] theorem only_setPrev : (s.setPrev l v).only live = (s.only live).setPrev l v := rfl
@[simp] theorem only_setOwner {o : Option (QueueRef Q)} :
    (s.setOwner l o).only live = (s.only live).setOwner l o := rfl
@[simp] theorem only_setNext? {w : Option LinkId} :
    (s.setNext? w v).only live = (s.only live).setNext? w v := rfl
@[simp] theorem only_setPrev? {w : Option LinkId} :
    (s.setPrev? w v).only live = (s.only live).setPrev? w v := rfl
@[simp] theorem only_setObject {o : Option O} :
    (s.setObject l o).only live = (s.only live).setObject l o := rfl
@[simp] theorem only_next : (s.only live).next = s.next := rfl
@[simp] theorem only_prev : (s.only live).prev = s.prev := rfl
@[simp] theorem only_queue : (s.only live).queue = s.queue := rfl
@[simp] theorem only_object : (s.only live).object = s.object := rfl

variable [DecidableEq Q]

/-! A routine does not look at the headers of other queues. -/

theorem insertAfter_only {after l : Option LinkId} (h : seen live r = true) :
    AQueueInsertAfter r after l (s.only live) =
      ((AQueueInsertAfter r after l s).1, (AQueueInsertAfter r after l s).2.only live) := by
  rcases l with _ | l
  · rfl
  rcases after with _ | x
  · by_cases hempty : s.first r ≠ none ∨ s.last r ≠ none ∨ ¬ s.nitems r = 0
    · simp [AQueueInsertAfter, AQueueFirst, AQueueLast, AQueueEmpty, AQueueLength, only_first h,
        only_last h, only_nitems h, hempty]
    · simp [AQueueInsertAfter, AQueueFirst, AQueueLast, AQueueEmpty, AQueueLength, only_first h,
        only_last h, only_nitems h, hempty, only_setFirst h, only_setLast h, only_setNitems h]
  · by_cases hq : s.queue x = some r
    · by_cases hl : s.last r = some x
      · simp [AQueueInsertAfter, hq, hl, AQueueLast, AQueueLength, only_setLast h, only_setNitems h,
          only_last h, only_nitems h]
      · simp [AQueueInsertAfter, hq, hl, AQueueLast, AQueueLength, only_setNitems h,
          only_last h, only_nitems h]
    · simp [AQueueInsertAfter, hq]

theorem insertBefore_only {before l : Option LinkId} (h : seen live r = true) :
    AQueueInsertBefore r before l (s.only live) =
      ((AQueueInsertBefore r before l s).1, (AQueueInsertBefore r before l s).2.only live) := by
  rcases l with _ | l
  · rfl
  rcases before with _ | x
  · by_cases hempty : s.first r ≠ none ∨ s.last r ≠ none ∨ ¬ s.nitems r = 0
    · simp [AQueueInsertBefore, AQueueFirst, AQueueLast, AQueueEmpty, AQueueLength, only_first h,
        only_last h, only_nitems h, hempty]
    · simp [AQueueInsertBefore, AQueueFirst, AQueueLast, AQueueEmpty, AQueueLength, only_first h,
        only_last h, only_nitems h, hempty, only_setFirst h, only_setLast h, only_setNitems h]
  · by_cases hq : s.queue x = some r
    · by_cases hl : s.first r = some x
      · simp [AQueueInsertBefore, hq, hl, AQueueFirst, AQueueLength, only_setFirst h,
          only_setNitems h, only_first h, only_nitems h]
      · simp [AQueueInsertBefore, hq, hl, AQueueFirst, AQueueLength, only_setNitems h,
          only_first h, only_nitems h]
    · simp [AQueueInsertBefore, hq]

theorem fixEnds_only {l : LinkId} (h : seen live r = true) :
    fixEnds r l (s.only live) = (fixEnds r l s).only live := by
  unfold fixEnds AQueueFirst AQueueLast
  by_cases h1 : s.first r = some l <;> by_cases h2 : s.last r = some l <;>
    simp [h1, h2, only_first h, only_last h, only_setFirst h, only_setLast h]

theorem moveEnds_only {x l : LinkId} (h : seen live r = true) :
    moveEnds r x l (s.only live) = (moveEnds r x l s).only live := by
  unfold moveEnds AQueueFirst AQueueLast
  by_cases h1 : s.first r = some l <;> by_cases h2 : s.last r = some x <;>
    simp [h1, h2, only_first h, only_last h, only_setFirst h, only_setLast h]

omit [DecidableEq Q] in
theorem reconnect_only {l : LinkId} : reconnect l (s.only live) = (reconnect l s).only live := rfl

theorem alloc_only {obj : O} : AQueueAllocLink obj (s.only live) =
    ((AQueueAllocLink obj s).1, (AQueueAllocLink obj s).2.only live) := by
  have h : seen live .freeLinks = true := rfl
  unfold AQueueAllocLink AQueueEmpty AQueueFirst AQueueLength
  rw [only_nitems h, only_first h]
  by_cases hn : s.nitems .freeLinks = 0
  · simp [hn]
  rcases hl : s.first .freeLinks with _ | l
  · simp [hn]
  · simp [hn, fixEnds_only h, only_nitems h, ← only_setNitems h, reconnect_only]

theorem remove_only {l : LinkId} (h : ∀ q, s.queue l = some q → seen live q = true) :
    AQueueRemove (some l) (s.only live) =
      ((AQueueRemove (some l) s).1, (AQueueRemove (some l) s).2.1,
        (AQueueRemove (some l) s).2.2.only live) := by
  rcases hq : s.queue l with _ | q
  · simp [AQueueRemove, hq]
  · have hq' := h q hq
    simp [AQueueRemove, hq, AQueueLength, fixEnds_only hq', reconnect_only, only_nitems hq',
      ← only_setNitems hq', AQueueInsertLast, AQueueLast, only_last (r := .freeLinks) rfl,
      insertAfter_only (r := .freeLinks) rfl]

theorem moveAfter_only {after l : Option LinkId} (h : seen live r = true) :
    AQueueMoveAfter r after l (s.only live) =
      ((AQueueMoveAfter r after l s).1, (AQueueMoveAfter r after l s).2.only live) := by
  rcases l with _ | l
  · rfl
  by_cases hl : s.queue l = some r
  swap
  · simp [AQueueMoveAfter, hl]
  rcases after with _ | x
  · by_cases hn : s.nitems r = 1 <;> by_cases he : s.first r = s.last r <;>
      simp [AQueueMoveAfter, hl, hn, he, AQueueLength, AQueueFirst, AQueueLast, only_nitems h,
        only_first h, only_last h]
  by_cases hx : s.queue x = some r
  swap
  · simp [AQueueMoveAfter, hl, hx]
  by_cases hxl : x = l
  · simp [AQueueMoveAfter, hl, hxl]
  by_cases he : s.last r = some l
  · simp [AQueueMoveAfter, hl, hx, hxl, he, AQueueLast, only_last h]
  · simp [AQueueMoveAfter, hl, hx, hxl, he, AQueueLast, only_last h, moveEnds_only h]

end Only

/-! ## One call -/

/-- The store holds the lists. Each link of the pool is on one list, or it is
allocated and on none. -/
structure ClientRep (s : Store Q O) (a : ClientQueues Q O) : Prop where
  lists : Lists (s.only a.live) a.lists
  out : ∀ l, a.out l = true ↔ Off a.lists l
  owner : ∀ l, a.out l = true → s.queue l = none
  fresh : ∀ q, a.live q = false → a.lists (.client q) = []
  object : s.object = a.object

omit [DecidableEq Q] in
/-- A link that is not out is on a list. -/
theorem ClientRep.exists_list (h : ClientRep s a) {l : LinkId} (hl : a.out l ≠ true) :
    ∃ r, l ∈ a.lists r := by
  have hon := mt (h.out l).mpr hl
  unfold Off at hon
  push Not at hon
  exact hon

omit [DecidableEq Q] in
theorem ClientRep.queue_iff (h : ClientRep s a) {l : LinkId} {r : QueueRef Q} :
    s.queue l = some r ↔ l ∈ a.lists r := by
  constructor
  · intro hq
    obtain ⟨t, ht⟩ := h.exists_list fun hout => by
      rw [h.owner l hout] at hq
      cases hq
    have hqt : s.queue l = some t := h.lists.queue t l ht
    rw [hq] at hqt
    exact Option.some.inj hqt ▸ ht
  · exact h.lists.queue r l

/-- An allocated link that has gone on a queue. -/
theorem ClientRep.put (h : ClientRep s a) {q : Q} {l : LinkId} {xs : List LinkId}
    (hlive : a.live q = true)
    (hxs : ∀ x, x ∈ xs ↔ x = l ∨ x ∈ a.lists (.client q))
    (hlists : Lists (s'.only a.live) (update a.lists (.client q) xs))
    (hobject : s'.object = s.object) (hqueue : s'.queue = update s.queue l (some (.client q))) :
    ClientRep s' (a.put q l xs).2 where
  lists := hlists
  out := fun x => by
    by_cases hx : x = l
    · subst hx
      refine iff_of_false (by simp [ClientQueues.put]) fun hoff => hoff (.client q) ?_
      simp [ClientQueues.put, hxs]
    · simp only [ClientQueues.put, update_of_ne hx, h.out x]
      refine forall_congr' fun r => not_congr ?_
      by_cases hr : r = .client q
      · subst hr
        simp [hxs, hx]
      · rw [update_of_ne hr]
  owner := fun x hx => by
    have hxl : x ≠ l := by
      rintro rfl
      simp [ClientQueues.put] at hx
    rw [hqueue, update_of_ne hxl]
    exact h.owner x (by simpa [ClientQueues.put, hxl] using hx)
  fresh := fun r hr => by
    have hne : r ≠ q := by
      rintro rfl
      exact absurd (hlive.symm.trans hr) (by simp)
    simpa [ClientQueues.put, hne] using h.fresh r hr
  object := hobject.trans h.object

/-- A routine that inserts a link, from what it does to the lists. -/
theorem ClientRep.insert (h : ClientRep s a) {q : Q} {l : LinkId} {xs : List LinkId}
    {f : Store Q O → Nat × Store Q O}
    (hlive : a.live q = true) (hxs : ∀ x, x ∈ xs ↔ x = l ∨ x ∈ a.lists (.client q))
    (honly : f (s.only a.live) = ((f s).1, (f s).2.only a.live))
    (hspec : ∃ t, f (s.only a.live) = (QUEUE_SUCCESS, t) ∧
      Lists t (update a.lists (.client q) xs) ∧ t.object = (s.only a.live).object ∧
      t.queue = update (s.only a.live).queue l (some (.client q))) :
    (answer (f s)).1 = .success ∧ ClientRep (answer (f s)).2 (a.put q l xs).2 := by
  obtain ⟨t, ht, hlists, hobject, hqueue⟩ := hspec
  obtain ⟨hr, rfl⟩ := Prod.mk.inj (honly.symm.trans ht)
  refine ⟨?_, h.put hlive hxs hlists hobject hqueue⟩
  unfold answer
  rw [hr]
  rfl

omit [DecidableEq Q] in
/-- The links of the lists are not out. -/
theorem ClientRep.off (h : ClientRep s a) {l : LinkId} (hl : a.out l = true) : Off a.lists l :=
  (h.out l).mp hl

theorem ClientRep.init (h : ClientRep s a) {q : Q} (hq : a.live q = false) :
    ClientRep ((QueueOp.init q).run s).2 (a.apply (.init q)).2 := by
  have hlists : update a.lists (.client q) [] = a.lists := by
    rw [← h.fresh q hq, update_eq_self]
  have honly : (AQueueInit (.client q) s).2.only (update a.live q true) = s.only a.live := by
    have hseen : ∀ r, r ≠ .client q → seen (update a.live q true) r = seen a.live r := by
      intro r hr
      rcases r with _ | r
      · rfl
      · have hrq : r ≠ q := fun he => hr (he ▸ rfl)
        simp [seen, hrq]
    have hdead : seen a.live (.client q) = false := hq
    unfold AQueueInit Store.only
    simp only [Store.mk.injEq, Store.setFirst, Store.setLast, Store.setNitems, true_and]
    refine ⟨funext fun r => ?_, funext fun r => ?_, funext fun r => ?_⟩
    all_goals by_cases hr : r = .client q
    all_goals simp [hr, hdead, hseen]
  unfold QueueOp.run answer ClientQueues.apply
  refine ⟨?_, ?_, ?_, ?_, ?_⟩
  · simp only [hlists, honly]
    exact h.lists
  · simp only [hlists]
    exact h.out
  · exact h.owner
  · intro r hr
    simp only [hlists]
    refine h.fresh r ?_
    by_cases hrq : r = q
    · simp [hrq] at hr
    · simpa [hrq] using hr
  · exact h.object

theorem ClientRep.alloc (h : ClientRep s a) (obj : O) :
    ((QueueOp.alloc obj).run s).1 = (a.apply (.alloc obj)).1 ∧
      ClientRep ((QueueOp.alloc obj).run s).2 (a.apply (.alloc obj)).2 := by
  have honly := @alloc_only _ _ s a.live _ obj
  rcases hf : a.lists .freeLinks with _ | ⟨l, fs⟩
  · have hempty : AQueueEmpty .freeLinks s = true := by
      have := (h.lists.empty_iff .freeLinks).mpr hf
      rwa [AQueueEmpty, AQueueLength, only_nitems rfl] at this
    simp only [QueueOp.run, AQueueAllocLink, hempty, if_true, ClientQueues.apply, hf]
    exact ⟨trivial, h⟩
  · obtain ⟨t, ht, hlists, hoff, hobject, hqueue⟩ := AQueueAllocLink.spec h.lists obj hf
    rw [ht] at honly
    obtain ⟨hr, rfl⟩ := Prod.mk.inj honly
    have hrun : (QueueOp.alloc obj).run s = (Answer.link l, (AQueueAllocLink obj s).2) := by
      have hpair : AQueueAllocLink obj s = (some l, (AQueueAllocLink obj s).2) :=
        Prod.ext hr.symm rfl
      simp only [QueueOp.run]
      rw [hpair]
    rw [hrun]
    simp only [ClientQueues.apply, hf, true_and]
    have hin : l ∈ a.lists .freeLinks := by simp [hf]
    refine ⟨hlists, ?_, ?_, ?_, ?_⟩
    · intro x
      by_cases hx : x = l
      · subst hx
        simpa using hoff
      · simp only [update_of_ne hx, h.out x]
        refine forall_congr' fun r => not_congr ?_
        by_cases hr : r = .freeLinks
        · subst hr
          simp [hf, hx]
        · rw [update_of_ne hr]
    · intro x hx
      by_cases hxl : x = l
      · simpa [hxl] using congrFun hqueue l
      · simp only [update_of_ne hxl] at hx
        have hold := congrFun hqueue x
        rw [update_of_ne hxl] at hold
        exact hold.trans (h.owner x hx)
    · intro q hq
      simpa using h.fresh q hq
    · exact hobject.trans (by rw [only_object, h.object])

/-! The four routines that insert a link. -/

theorem ClientRep.insertFirst (h : ClientRep s a) {q : Q} {l : LinkId} (hq : a.live q = true)
    (hl : a.out l = true) :
    ((QueueOp.insertFirst q l).run s).1 = (a.apply (.insertFirst q l)).1 ∧
      ClientRep ((QueueOp.insertFirst q l).run s).2 (a.apply (.insertFirst q l)).2 := by
  refine h.insert hq (by simp) ?_ (AQueueInsertFirst.spec h.lists (.client q) (h.off hl))
  simp [AQueueInsertFirst, AQueueFirst, only_first (r := .client q) hq,
    insertBefore_only (r := .client q) hq]

theorem ClientRep.insertLast (h : ClientRep s a) {q : Q} {l : LinkId} (hq : a.live q = true)
    (hl : a.out l = true) :
    ((QueueOp.insertLast q l).run s).1 = (a.apply (.insertLast q l)).1 ∧
      ClientRep ((QueueOp.insertLast q l).run s).2 (a.apply (.insertLast q l)).2 := by
  refine h.insert hq (by simp [or_comm]) ?_ (AQueueInsertLast.spec h.lists (.client q) (h.off hl))
  simp [AQueueInsertLast, AQueueLast, only_last (r := .client q) hq,
    insertAfter_only (r := .client q) hq]

omit [DecidableEq Q] in
/-- The ends of a queue that is live, and how many links it has. -/
theorem ClientRep.ends (h : ClientRep s a) {r : QueueRef Q} (hr : seen a.live r = true) :
    s.first r = (a.lists r).head? ∧ s.last r = (a.lists r).getLast? ∧
      s.nitems r = (a.lists r).length := by
  rw [← only_first hr, ← only_last hr, ← only_nitems hr]
  exact ⟨h.lists.first r, h.lists.last r, h.lists.nitems r⟩

omit [DecidableEq Q] in
theorem ClientRep.empty_iff (h : ClientRep s a) {q : Q} (hq : a.live q = true) :
    (AQueueFirst (.client q) s ≠ none ∨ AQueueLast (.client q) s ≠ none ∨
      ¬ AQueueEmpty (.client q) s) ↔ a.lists (.client q) ≠ [] := by
  obtain ⟨hfirst, hlast, hitems⟩ := h.ends (r := .client q) hq
  simp [AQueueFirst, AQueueLast, AQueueEmpty, AQueueLength, hfirst, hlast, hitems]

theorem ClientRep.insertAfter (h : ClientRep s a) {q : Q} {l : LinkId} (after : Option LinkId)
    (hq : a.live q = true) (hl : a.out l = true) :
    ((QueueOp.insertAfter q after l).run s).1 = (a.apply (.insertAfter q after l)).1 ∧
      ClientRep ((QueueOp.insertAfter q after l).run s).2 (a.apply (.insertAfter q after l)).2 := by
  rcases after with _ | x
  · simp only [QueueOp.run, ClientQueues.apply]
    split_ifs with hempty
    · refine h.insert hq (by simp [hempty]) (insertAfter_only (r := .client q) hq) ?_
      exact @AQueueInsertAfter.spec _ _ _ _ _ h.lists _ [] [] _ (h.off hl) hempty fun _ => rfl
    · have hfail := (h.empty_iff hq).mpr hempty
      simp only [AQueueInsertAfter, if_pos hfail, answer, if_true]
      exact ⟨trivial, h⟩
  · simp only [QueueOp.run, ClientQueues.apply]
    split_ifs with hx
    · obtain ⟨ys, zs, hsplit, hys⟩ := List.eq_append_cons_of_mem hx
      refine h.insert hq (fun y => mem_insertAfter hx) (insertAfter_only (r := .client q) hq) ?_
      have hspec := @AQueueInsertAfter.spec _ _ _ _ _ h.lists _ (ys ++ [x]) zs _ (h.off hl)
        (by rw [hsplit]; simp) (by simp)
      rw [hsplit, insertAfter_eq hys]
      simpa using hspec
    · have hfail : s.queue x ≠ some (.client q) := mt h.queue_iff.mp hx
      simp only [AQueueInsertAfter, if_pos hfail, answer, if_true]
      exact ⟨trivial, h⟩

theorem ClientRep.insertBefore (h : ClientRep s a) {q : Q} {l : LinkId} (before : Option LinkId)
    (hq : a.live q = true) (hl : a.out l = true) :
    ((QueueOp.insertBefore q before l).run s).1 = (a.apply (.insertBefore q before l)).1 ∧
      ClientRep ((QueueOp.insertBefore q before l).run s).2
      (a.apply (.insertBefore q before l)).2 := by
  rcases before with _ | x
  · simp only [QueueOp.run, ClientQueues.apply]
    split_ifs with hempty
    · refine h.insert hq (by simp [hempty]) (insertBefore_only (r := .client q) hq) ?_
      exact @AQueueInsertBefore.spec _ _ _ _ _ h.lists _ [] [] _ (h.off hl) hempty fun _ => rfl
    · have hfail := (h.empty_iff hq).mpr hempty
      simp only [AQueueInsertBefore, if_pos hfail, answer, if_true]
      exact ⟨trivial, h⟩
  · simp only [QueueOp.run, ClientQueues.apply]
    split_ifs with hx
    · obtain ⟨ys, zs, hsplit, hys⟩ := List.eq_append_cons_of_mem hx
      refine h.insert hq (fun y => mem_insertBefore hx) (insertBefore_only (r := .client q) hq) ?_
      have hspec := @AQueueInsertBefore.spec _ _ _ _ _ h.lists _ ys (x :: zs) _ (h.off hl)
        hsplit (by simp)
      rw [hsplit, insertBefore_eq hys]
      simpa using hspec
    · have hfail : s.queue x ≠ some (.client q) := mt h.queue_iff.mp hx
      simp only [AQueueInsertBefore, if_pos hfail, answer, if_true]
      exact ⟨trivial, h⟩

/-! The two routines that take a link from its place. -/

omit [DecidableEq Q] in
theorem ClientRep.erase_of_other (h : ClientRep s a) {q r : QueueRef Q} {l : LinkId}
    (hl : l ∈ a.lists q)
    (hr : r ≠ q) : (a.lists r).erase l = a.lists r :=
  List.erase_of_not_mem fun hlr => hr (h.lists.disjoint hlr hl)

omit [DecidableEq Q] in
/-- Only queues that are live have links. -/
theorem ClientRep.live_of_mem (h : ClientRep s a) {q : Q} {l : LinkId}
    (hl : l ∈ a.lists (.client q)) :
    a.live q = true := by
  by_contra hq
  rw [h.fresh q (by simpa using hq)] at hl
  simp at hl

theorem ClientRep.remove (h : ClientRep s a) {l : LinkId} (hlegal : ∃ q, l ∈ a.lists (.client q)) :
    ((QueueOp.remove l).run s).1 = (a.apply (.remove l)).1 ∧
      ClientRep ((QueueOp.remove l).run s).2 (a.apply (.remove l)).2 := by
  obtain ⟨q, hl⟩ := hlegal
  obtain ⟨ys, zs, hsplit, hys⟩ := List.eq_append_cons_of_mem hl
  have hlive := h.live_of_mem hl
  have honly := @remove_only _ _ s a.live _ l fun r hr => by
    have hrq := h.queue_iff.mp hr
    rw [h.lists.disjoint hrq hl]
    exact hlive
  obtain ⟨t, ht, hlists, hobject, hqueue⟩ := AQueueRemove.spec h.lists hsplit (by simp)
  rw [ht] at honly
  obtain ⟨hr, hrest⟩ := Prod.mk.inj honly
  obtain ⟨-, rfl⟩ := Prod.mk.inj hrest
  have herase : update (update a.lists (.client q) (ys ++ zs)) .freeLinks
      (a.lists .freeLinks ++ [l]) =
        update (fun r => (a.lists r).erase l) .freeLinks (a.lists .freeLinks ++ [l]) := by
    funext r
    by_cases hf : r = .freeLinks
    · simp [hf]
    rw [update_of_ne hf, update_of_ne hf]
    by_cases hrq : r = .client q
    · subst hrq
      rw [update_self, hsplit, List.erase_append_right _ hys, List.erase_cons_head]
    · rw [update_of_ne hrq, h.erase_of_other hl hrq]
  rw [herase] at hlists
  simp only [QueueOp.run, ClientQueues.apply, answer, ← hr]
  refine ⟨rfl, hlists, ?_, ?_, ?_, hobject.trans h.object⟩
  · intro x
    by_cases hx : x = l
    · subst hx
      refine iff_of_false (fun hout => h.off hout _ hl) fun hoff => hoff .freeLinks ?_
      simp
    · rw [h.out x]
      refine forall_congr' fun r => not_congr ?_
      by_cases hf : r = .freeLinks
      · subst hf
        simp [hx]
      · simp only [update_of_ne hf, List.mem_erase_of_ne hx]
  · intro x hx
    have hxl : x ≠ l := by
      rintro rfl
      exact h.off hx _ hl
    have hold := congrFun hqueue x
    rw [update_of_ne hxl] at hold
    exact hold.trans (h.owner x hx)
  · intro r hr
    simp [h.fresh r hr]

theorem ClientRep.reorder (h : ClientRep s a) {q : Q} {xs : List LinkId} (hlive : a.live q = true)
    (hxs : ∀ x, x ∈ xs ↔ x ∈ a.lists (.client q))
    (hlists : Lists (s'.only a.live) (update a.lists (.client q) xs))
    (hobject : s'.object = s.object) (hqueue : s'.queue = s.queue) :
    ClientRep s' (a.reorder q xs).2 where
  lists := hlists
  out := fun x => by
    refine (h.out x).trans (forall_congr' fun r => not_congr ?_)
    by_cases hr : r = .client q
    · subst hr
      simp [ClientQueues.reorder, hxs]
    · simp [ClientQueues.reorder, hr]
  owner := fun x hx => by
    rw [hqueue]
    exact h.owner x hx
  fresh := fun r hr => by
    have hne : r ≠ q := by
      rintro rfl
      exact absurd (hlive.symm.trans hr) (by simp)
    simpa [ClientQueues.reorder, hne] using h.fresh r hr
  object := hobject.trans h.object

/-- With `after` NULL there is nothing to move: the link has to be alone. -/
theorem ClientRep.moveAlone (h : ClientRep s a) {q : Q} {l : LinkId} (hq : a.live q = true) :
    ((QueueOp.moveAfter q none (some l)).run s).1 = (a.apply (.moveAfter q none (some l))).1 ∧
      ClientRep ((QueueOp.moveAfter q none (some l)).run s).2
        (a.apply (.moveAfter q none (some l))).2 := by
  obtain ⟨hfirst, hlast, hitems⟩ := h.ends (r := .client q) hq
  simp only [QueueOp.run, ClientQueues.apply, AQueueMoveAfter, AQueueLength, AQueueFirst,
    AQueueLast, hfirst, hlast, hitems]
  by_cases hlone : a.lists (.client q) = [l]
  · have hon : s.queue l = some (.client q) := h.queue_iff.mpr (by simp [hlone])
    simp only [hon, hlone, if_true, ne_eq, not_true_eq_false, if_false, List.head?_cons,
      List.getLast?_singleton, List.length_singleton, Int.natCast_one]
    exact ⟨rfl, h⟩
  rw [if_neg hlone]
  by_cases hon : s.queue l = some (.client q)
  · have hmany : ((a.lists (.client q)).length : Int) ≠ 1 := by
      intro hn
      obtain ⟨x, hx⟩ := List.length_eq_one_iff.mp (Int.ofNat_inj.mp hn)
      have hl := h.queue_iff.mp hon
      rw [hx, List.mem_singleton] at hl
      exact hlone (hl ▸ hx)
    simp only [hon, ne_eq, not_true_eq_false, if_false, hmany, not_false_eq_true, if_true]
    exact ⟨rfl, h⟩
  · simp only [ne_eq, hon, not_false_eq_true, if_true]
    exact ⟨rfl, h⟩

theorem ClientRep.moveBehind (h : ClientRep s a) {q : Q} {x l : LinkId} (hq : a.live q = true) :
    ((QueueOp.moveAfter q (some x) (some l)).run s).1 =
        (a.apply (.moveAfter q (some x) (some l))).1 ∧
      ClientRep ((QueueOp.moveAfter q (some x) (some l)).run s).2
        (a.apply (.moveAfter q (some x) (some l))).2 := by
  have hlast : AQueueLast (.client q) s = (a.lists (.client q)).getLast? :=
    (h.ends (r := .client q) hq).2.1
  simp only [QueueOp.run, ClientQueues.apply]
  by_cases hl : l ∈ a.lists (.client q)
  swap
  · have hne : s.queue l ≠ some (.client q) := mt h.queue_iff.mp hl
    simp only [AQueueMoveAfter, if_pos hne, hl, not_false_eq_true, true_or, if_true]
    exact ⟨rfl, h⟩
  have hlq : ¬ s.queue l ≠ some (.client q) := not_not.mpr (h.queue_iff.mpr hl)
  by_cases hx : x ∈ a.lists (.client q)
  swap
  · have hne : s.queue x ≠ some (.client q) := mt h.queue_iff.mp hx
    simp only [AQueueMoveAfter, if_neg hlq, if_pos hne, hx, not_false_eq_true, or_true, if_true]
    exact ⟨rfl, h⟩
  have hxq : ¬ s.queue x ≠ some (.client q) := not_not.mpr (h.queue_iff.mpr hx)
  rw [if_neg (not_or.mpr ⟨not_not.mpr hl, not_not.mpr hx⟩)]
  by_cases hxl : x = l
  · simp only [AQueueMoveAfter, if_neg hlq, if_neg hxq, if_pos hxl]
    exact ⟨rfl, h⟩
  rw [if_neg hxl]
  by_cases hend : (a.lists (.client q)).getLast? = some l
  · simp only [AQueueMoveAfter, if_neg hlq, if_neg hxq, if_neg hxl, hlast, if_pos hend]
    exact ⟨rfl, h⟩
  rw [if_neg hend]
  -- the list around `l`, and then the rest of it around `x`
  obtain ⟨as, bs, hsplit, has⟩ := List.eq_append_cons_of_mem hl
  have hbs : bs ≠ [] := by
    rintro rfl
    exact hend (by rw [hsplit]; simp)
  have herase : (a.lists (.client q)).erase l = as ++ bs := by
    rw [hsplit, List.erase_append_right _ has, List.erase_cons_head]
  have hxrest : x ∈ as ++ bs := by
    rw [← herase, List.mem_erase_of_ne hxl]
    exact hx
  obtain ⟨ys, zs, hrest, hys⟩ := List.eq_append_cons_of_mem hxrest
  have honly := @moveAfter_only _ _ s _ (.client q) _ (some x) (some l) hq
  obtain ⟨t, ht, hlists, hobject, hqueue⟩ := AQueueMoveAfter.spec h.lists hsplit hbs hrest
  rw [ht] at honly
  obtain ⟨hr, rfl⟩ := Prod.mk.inj honly
  have hmove : dlxos.insertAfter x l ((a.lists (.client q)).erase l) = ys ++ x :: l :: zs := by
    rw [herase, hrest, insertAfter_eq hys]
  have hmem : ∀ y, y ∈ ys ++ x :: l :: zs ↔ y ∈ a.lists (.client q) := by
    intro y
    rw [← hmove, mem_insertAfter ((List.mem_erase_of_ne hxl).mpr hx),
      (h.lists.nodup (.client q)).mem_erase_iff]
    by_cases hy : y = l
    · simp [hy, hl]
    · simp [hy]
  rw [hmove]
  refine ⟨?_, h.reorder hq hmem hlists hobject hqueue⟩
  unfold answer
  rw [← hr]
  rfl

theorem ClientRep.moveAfter (h : ClientRep s a) {q : Q} (after l : Option LinkId)
    (hq : a.live q = true) :
    ((QueueOp.moveAfter q after l).run s).1 = (a.apply (.moveAfter q after l)).1 ∧
      ClientRep ((QueueOp.moveAfter q after l).run s).2 (a.apply (.moveAfter q after l)).2 := by
  rcases l with _ | l
  · simp only [QueueOp.run, ClientQueues.apply, AQueueMoveAfter]
    exact ⟨rfl, h⟩
  rcases after with _ | x
  · exact h.moveAlone hq
  · exact h.moveBehind hq

/-- Every routine does to the lists what its comment says. -/
theorem ClientRep.step (h : ClientRep s a) {op : QueueOp Q O} (hlegal : a.Legal op) :
    (op.run s).1 = (a.apply op).1 ∧ ClientRep (op.run s).2 (a.apply op).2 := by
  cases op with
  | init q => exact ⟨rfl, h.init hlegal⟩
  | alloc obj => exact h.alloc obj
  | insertFirst q l => exact h.insertFirst hlegal.1 hlegal.2
  | insertLast q l => exact h.insertLast hlegal.1 hlegal.2
  | insertAfter q after l => exact h.insertAfter after hlegal.1 hlegal.2
  | insertBefore q before l => exact h.insertBefore before hlegal.1 hlegal.2
  | remove l => exact h.remove hlegal
  | moveAfter q after l => exact h.moveAfter after l hlegal

/-! ## Failing calls -/

theorem insertAfter_fail {r : QueueRef Q} {after l : Option LinkId}
    (h : (AQueueInsertAfter r after l s).1 = QUEUE_FAIL) :
    (AQueueInsertAfter r after l s).2 = s := by
  unfold AQueueInsertAfter at h ⊢
  rcases l with _ | l
  · rfl
  rcases after with _ | x
  all_goals
    dsimp only at h ⊢
    split_ifs at h ⊢
    all_goals first
      | rfl
      | exact absurd h Nat.one_ne_zero

theorem insertBefore_fail {r : QueueRef Q} {before l : Option LinkId}
    (h : (AQueueInsertBefore r before l s).1 = QUEUE_FAIL) :
    (AQueueInsertBefore r before l s).2 = s := by
  unfold AQueueInsertBefore at h ⊢
  rcases l with _ | l
  · rfl
  rcases before with _ | x
  all_goals
    dsimp only at h ⊢
    split_ifs at h ⊢
    all_goals first
      | rfl
      | exact absurd h Nat.one_ne_zero

theorem moveAfter_fail {r : QueueRef Q} {after l : Option LinkId}
    (h : (AQueueMoveAfter r after l s).1 = QUEUE_FAIL) :
    (AQueueMoveAfter r after l s).2 = s := by
  unfold AQueueMoveAfter at h ⊢
  rcases l with _ | l
  · rfl
  rcases after with _ | x
  all_goals
    dsimp only at h ⊢
    split_ifs at h ⊢
    all_goals first
      | rfl
      | exact absurd h Nat.one_ne_zero

theorem remove_fail {l : Option LinkId} (h : (AQueueRemove l s).1 = QUEUE_FAIL) :
    (AQueueRemove l s).2.2 = s := by
  unfold AQueueRemove at h ⊢
  rcases l with _ | l
  · rfl
  rcases hq : s.queue l with _ | q
  · simp only [hq]
  · simp [hq, QUEUE_SUCCESS, QUEUE_FAIL] at h

omit [DecidableEq Q] in
theorem answer_fail {r : Nat × Store Q O} : (answer r).1 = .fail ↔ r.1 = QUEUE_FAIL := by
  unfold answer
  by_cases hr : r.1 = QUEUE_FAIL <;> simp [hr]

/-- A routine that fails has written nothing. -/
theorem run_fail {op : QueueOp Q O} (h : (op.run s).1 = .fail) : (op.run s).2 = s := by
  cases op with
  | init q => cases h
  | alloc obj =>
    simp only [QueueOp.run, AQueueAllocLink] at h ⊢
    split_ifs at h ⊢
    · rfl
    rcases hl : AQueueFirst .freeLinks s with _ | l
    · rfl
    · simp [hl] at h
  | insertFirst q l => exact insertBefore_fail (answer_fail.mp h)
  | insertLast q l => exact insertAfter_fail (answer_fail.mp h)
  | insertAfter q after l => exact insertAfter_fail (answer_fail.mp h)
  | insertBefore q before l => exact insertBefore_fail (answer_fail.mp h)
  | remove l =>
    have hr : (AQueueRemove (some l) s).1 = QUEUE_FAIL := answer_fail.mp h
    exact remove_fail hr
  | moveAfter q after l => exact moveAfter_fail (answer_fail.mp h)

/-! ## Every run -/

/-- The states of a run of legal calls, beside the lists. Before
`AQueueModuleInit` the memory may hold anything. -/
inductive QueueRun : Store Q O → ClientQueues Q O → Prop where
  | start (s : Store Q O) : QueueRun (AQueueModuleInit s).2 ClientQueues.start
  | step {s : Store Q O} {a : ClientQueues Q O} (op : QueueOp Q O) :
    QueueRun s a → a.Legal op → QueueRun (op.run s).2 (a.apply op).2

theorem initLink_only {live : Q → Bool} {l : LinkId} :
    initLink (s.only live) l = (initLink s l).only live := by
  unfold initLink AQueueInsertLast AQueueLast
  simp only [reduceCtorEq, if_false, ← only_setNext, ← only_setPrev, ← only_setObject,
    only_last (r := .freeLinks) rfl, insertAfter_only (r := .freeLinks) rfl]

theorem initLinks_only {live : Q → Bool} (ls : List LinkId) :
    ls.foldl initLink (s.only live) = (ls.foldl initLink s).only live := by
  induction ls generalizing s with
  | nil => rfl
  | cons l ls ih =>
    simp only [List.foldl_cons]
    rw [initLink_only, ih]

theorem insertAfter_object (r : QueueRef Q) (after l : Option LinkId) :
    (AQueueInsertAfter r after l s).2.object = s.object := by
  unfold AQueueInsertAfter
  rcases l with _ | l
  · rfl
  rcases after with _ | x
  all_goals
    dsimp only
    split_ifs
    all_goals rfl

theorem initLink_object (l : LinkId) : (initLink s l).object = update s.object l none := by
  unfold initLink AQueueInsertLast
  dsimp only
  rw [if_neg (by simp), insertAfter_object]
  rfl

theorem initLinks_object {l : LinkId} (ls : List LinkId) : ∀ {s : Store Q O},
    s.object l = none ∨ l ∈ ls → (ls.foldl initLink s).object l = none := by
  induction ls with
  | nil => exact fun h => h.resolve_right (List.not_mem_nil)
  | cons x ls ih =>
    intro s h
    rw [List.foldl_cons]
    refine ih ?_
    rw [initLink_object]
    by_cases hx : l = x
    · subst hx
      exact .inl (update_self ..)
    · rw [update_of_ne hx]
      exact h.imp id fun hm => (List.mem_cons.mp hm).resolve_left hx

theorem ClientRep.start (s : Store Q O) : ClientRep (AQueueModuleInit s).2 ClientQueues.start := by
  have hempty : Lists ((AQueueInit .freeLinks s).2.only fun _ => false) fun _ => [] := by
    refine ⟨?_, ?_, ?_, fun _ => trivial, by simp, by simp⟩
    all_goals
      intro r
      rcases r with _ | q
      all_goals simp [AQueueInit, Store.only, seen]
  have hlists := initLinks.spec hempty _ (List.nodup_finRange _) (by simp [Off])
  rw [initLinks_only, List.nil_append] at hlists
  have hall : ∀ l : LinkId, l ∈ List.finRange QUEUE_MAX_LINKS := List.mem_finRange
  unfold AQueueModuleInit ClientQueues.start
  generalize List.finRange QUEUE_MAX_LINKS = ls at hlists hall ⊢
  refine ⟨hlists, ?_, ?_, ?_, ?_⟩
  · intro l
    refine iff_of_false (by simp) fun hoff => hoff .freeLinks ?_
    simpa using hall l
  · intro l hl
    cases hl
  · intro q _
    simp
  · funext l
    exact initLinks_object ls (.inr (hall l))

theorem QueueRun.rep (h : QueueRun s a) : ClientRep s a := by
  induction h with
  | start s => exact ClientRep.start s
  | step op _ hlegal ih => exact (ih.step hlegal).2

/-- Queue `q` is the list `xs`: its ends and its length, and the neighbours and
the owner of each of its links. -/
structure Store.IsList (s : Store Q O) (q : QueueRef Q) (xs : List LinkId) : Prop where
  first : s.first q = xs.head?
  last : s.last q = xs.getLast?
  nitems : s.nitems q = xs.length
  nodup : xs.Nodup
  queue : ∀ l ∈ xs, s.queue l = some q
  neighbours : ∀ ys l zs, xs = ys ++ l :: zs → s.prev l = ys.getLast? ∧ s.next l = zs.head?
  inverse : ∀ x ∈ xs, ∀ y ∈ xs, s.next x = some y ↔ s.prev y = some x

/-- Every queue that is in use is a list, and every link of the pool is on one of
them or else allocated. -/
structure Represents (s : Store Q O) (a : ClientQueues Q O) : Prop where
  lists : ∀ q, seen a.live q = true → s.IsList q (a.lists q)
  pool : ∀ l, a.out l = false → ∃! q, seen a.live q = true ∧ l ∈ a.lists q
  out : ∀ l, a.out l = true → ∀ q, l ∉ a.lists q
  object : s.object = a.object

omit [DecidableEq Q] in
theorem ClientRep.isList (h : ClientRep s a) {q : QueueRef Q} (hq : seen a.live q = true) :
    s.IsList q (a.lists q) := by
  have hnear : ∀ ys l zs, a.lists q = ys ++ l :: zs →
      s.prev l = ys.getLast? ∧ s.next l = zs.head? := by
    intro ys l zs hsplit
    have hseg := h.lists.seg q
    rw [hsplit] at hseg
    simpa [chain.before] using hseg.neighbours
  obtain ⟨hfirst, hlast, hitems⟩ := h.ends hq
  refine ⟨hfirst, hlast, hitems, h.lists.nodup q, fun l => h.queue_iff.mpr, hnear,
    fun x hx y hy => ?_⟩
  constructor
  · intro hn
    obtain ⟨ys, zs, hsplit⟩ := List.append_of_mem hx
    have hhead := (hnear ys x zs hsplit).2
    rw [hn] at hhead
    rcases zs with _ | ⟨z, zs⟩
    · cases hhead
    obtain rfl := Option.some.inj hhead
    have hprev := (hnear (ys ++ [x]) y zs (by simp [hsplit])).1
    simpa using hprev
  · intro hp
    obtain ⟨ys, zs, hsplit⟩ := List.append_of_mem hy
    have hend := (hnear ys y zs hsplit).1
    rw [hp] at hend
    rcases List.eq_nil_or_concat ys with rfl | ⟨ys, z, rfl⟩
    · cases hend
    obtain rfl : x = z := by simpa using hend
    have hnext := (hnear ys x (y :: zs) (by simp [hsplit])).2
    simpa using hnext

omit [DecidableEq Q] in
theorem ClientRep.represents (h : ClientRep s a) : Represents s a where
  lists := fun q hq => h.isList hq
  pool := fun l hl => by
    obtain ⟨q, hq⟩ := h.exists_list (Bool.not_eq_true _ ▸ hl)
    refine ⟨q, ⟨?_, hq⟩, fun r hr => h.lists.disjoint hr.2 hq⟩
    rcases q with _ | q
    · rfl
    · exact h.live_of_mem hq
  out := fun l hl => h.off hl
  object := h.object

/-- In every run of legal calls the queues are lists, each call returns what the
list operation returns and does to the lists what it does, and a call that fails
leaves the whole state as it was. -/
theorem queue_refinement (h : QueueRun s a) :
    Represents s a ∧ ∀ op, a.Legal op →
      (op.run s).1 = (a.apply op).1 ∧ Represents (op.run s).2 (a.apply op).2 ∧
        ((op.run s).1 = .fail → (op.run s).2 = s) := by
  refine ⟨h.rep.represents, fun op hlegal => ?_⟩
  obtain ⟨hanswer, hrep⟩ := h.rep.step hlegal
  exact ⟨hanswer, hrep.represents, run_fail⟩

/-- The memory before the start: every link points to itself. -/
def loops : Store Unit Nat where
  next l := some l
  prev l := some l
  queue _ := some (.client ())
  object _ := some 3
  first _ := some (5 : Fin 400)
  last _ := some (7 : Fin 400)
  nitems _ := -1

/-- A queue is initialized, and link 0 goes on it with object 9. -/
theorem queue_refinement_of_loops :
    let a := ((ClientQueues.start.apply (.init ())).2.apply (.alloc 9)).2
    Represents ((QueueOp.alloc 9).run ((QueueOp.init ()).run (AQueueModuleInit loops).2).2).2 a ∧
      ((QueueOp.insertFirst () (0 : Fin 400)).run ((QueueOp.alloc 9).run
        ((QueueOp.init ()).run (AQueueModuleInit loops).2).2).2).1 = .success := by
  have hrun := QueueRun.step (.alloc 9) (QueueRun.step (.init ()) (QueueRun.start loops) rfl)
    trivial
  have hlegal : ((ClientQueues.start.apply (.init ())).2.apply (.alloc 9)).2.Legal
      (.insertFirst () (0 : Fin 400)) := by
    have hfree : List.finRange QUEUE_MAX_LINKS =
        (0 : Fin 400) :: (List.finRange 399).map Fin.succ := List.finRange_succ
    simp only [ClientQueues.apply, ClientQueues.Legal, ClientQueues.start, hfree]
    exact ⟨rfl, rfl⟩
  obtain ⟨h, hstep⟩ := queue_refinement hrun
  exact ⟨h, (hstep _ hlegal).1⟩

end dlxos
