-- The queues of `queue.c`: doubly linked lists of links that all come from
-- one static pool. A link or a queue is named by its place in memory, and a
-- NULL pointer is `none`. Queue arguments are addresses of static queues,
-- which are never NULL.
import DlxOs.Chain
import Mathlib.Logic.Function.Basic
import Mathlib.Tactic.Simps.Basic

namespace dlxos

open Function

def QUEUE_MAX_LINKS : Nat := 400
def QUEUE_FAIL : Nat := 0
def QUEUE_SUCCESS : Nat := 1

/-- A link of the pool. -/
abbrev LinkId := Fin QUEUE_MAX_LINKS

/-- The queue of free links, or a queue of another module. -/
inductive QueueRef (Q : Type) where
  | freeLinks
  | client (q : Q)
deriving DecidableEq

/-- The memory of the queue routines. The fields of each link and of each
queue header are kept field by field: `s.next l` is `l->next`, and
`s.first q` is `q->first`. -/
structure Store (Q O : Type) where
  next : LinkId → Option LinkId
  prev : LinkId → Option LinkId
  queue : LinkId → Option (QueueRef Q)
  object : LinkId → Option O
  first : QueueRef Q → Option LinkId
  last : QueueRef Q → Option LinkId
  nitems : QueueRef Q → Int

variable {Q O : Type} [DecidableEq Q]

namespace Store

@[simps -fullyApplied] def setNext (s : Store Q O) (l : LinkId) (v : Option LinkId) : Store Q O :=
  { s with next := update s.next l v }

@[simps -fullyApplied] def setPrev (s : Store Q O) (l : LinkId) (v : Option LinkId) : Store Q O :=
  { s with prev := update s.prev l v }

@[simps -fullyApplied] def setOwner (s : Store Q O) (l : LinkId) (v : Option (QueueRef Q)) :
    Store Q O :=
  { s with queue := update s.queue l v }

@[simps -fullyApplied] def setObject (s : Store Q O) (l : LinkId) (v : Option O) : Store Q O :=
  { s with object := update s.object l v }

/-- `if (p) p->next = v;` -/
@[simps -fullyApplied] def setNext? (s : Store Q O) (p v : Option LinkId) : Store Q O :=
  { s with next := fun x => if p = some x then v else s.next x }

/-- `if (p) p->prev = v;` -/
@[simps -fullyApplied] def setPrev? (s : Store Q O) (p v : Option LinkId) : Store Q O :=
  { s with prev := fun x => if p = some x then v else s.prev x }

@[simps -fullyApplied] def setFirst (s : Store Q O) (q : QueueRef Q) (v : Option LinkId) :
    Store Q O :=
  { s with first := update s.first q v }

@[simps -fullyApplied] def setLast (s : Store Q O) (q : QueueRef Q) (v : Option LinkId) :
    Store Q O :=
  { s with last := update s.last q v }

@[simps -fullyApplied] def setNitems (s : Store Q O) (q : QueueRef Q) (v : Int) : Store Q O :=
  { s with nitems := update s.nitems q v }

end Store

/-! ## The access functions -/

def AQueueFirst (q : QueueRef Q) (s : Store Q O) : Option LinkId := s.first q
def AQueueLast (q : QueueRef Q) (s : Store Q O) : Option LinkId := s.last q
def AQueueObject (l : LinkId) (s : Store Q O) : Option O := s.object l
def AQueueLength (q : QueueRef Q) (s : Store Q O) : Int := s.nitems q
def AQueueEmpty (q : QueueRef Q) (s : Store Q O) : Bool := AQueueLength q s == 0

/-! ## The routines -/

def AQueueInit (q : QueueRef Q) (s : Store Q O) : Nat × Store Q O :=
  (QUEUE_SUCCESS, ((s.setFirst q none).setLast q none).setNitems q 0)

/-- Inserts link `l` after link `after` in queue `q`. -/
def AQueueInsertAfter (q : QueueRef Q) (after l : Option LinkId) (s : Store Q O) :
    Nat × Store Q O :=
  match l, after with
  | none, _ => (QUEUE_FAIL, s)
  | some l, none =>
    -- `after` is NULL, so the list has to be empty
    if AQueueFirst q s ≠ none ∨ AQueueLast q s ≠ none ∨ ¬ AQueueEmpty q s then
      (QUEUE_FAIL, s)
    else
      let s := s.setOwner l (some q)
      let s := s.setPrev l none
      let s := s.setNext l none
      (QUEUE_SUCCESS, ((s.setFirst q (some l)).setLast q (some l)).setNitems q 1)
  | some l, some a =>
    if s.queue a ≠ some q then (QUEUE_FAIL, s)
    else
      let s := s.setOwner l (some q)
      let s := s.setPrev l (some a)
      let s := s.setNext l (s.next a)
      let s := s.setNext a (some l)
      let s := s.setPrev? (s.next l) (some l)
      let s := if AQueueLast q s = some a then s.setLast q (some l) else s
      (QUEUE_SUCCESS, s.setNitems q (AQueueLength q s + 1))

/-- Inserts link `l` before link `before` in queue `q`. -/
def AQueueInsertBefore (q : QueueRef Q) (before l : Option LinkId) (s : Store Q O) :
    Nat × Store Q O :=
  match l, before with
  | none, _ => (QUEUE_FAIL, s)
  | some l, none =>
    if AQueueFirst q s ≠ none ∨ AQueueLast q s ≠ none ∨ ¬ AQueueEmpty q s then
      (QUEUE_FAIL, s)
    else
      let s := s.setOwner l (some q)
      let s := s.setNext l none
      let s := s.setPrev l none
      (QUEUE_SUCCESS, ((s.setFirst q (some l)).setLast q (some l)).setNitems q 1)
  | some l, some b =>
    if s.queue b ≠ some q then (QUEUE_FAIL, s)
    else
      let s := s.setOwner l (some q)
      let s := s.setNext l (some b)
      let s := s.setPrev l (s.prev b)
      let s := s.setPrev b (some l)
      let s := s.setNext? (s.prev l) (some l)
      let s := if AQueueFirst q s = some b then s.setFirst q (some l) else s
      (QUEUE_SUCCESS, s.setNitems q (AQueueLength q s + 1))

def AQueueInsertFirst (q : QueueRef Q) (l : Option LinkId) (s : Store Q O) : Nat × Store Q O :=
  if l = none then (QUEUE_FAIL, s) else AQueueInsertBefore q (AQueueFirst q s) l s

def AQueueInsertLast (q : QueueRef Q) (l : Option LinkId) (s : Store Q O) : Nat × Store Q O :=
  if l = none then (QUEUE_FAIL, s) else AQueueInsertAfter q (AQueueLast q s) l s

/-- The queue's own first and last pointers step over link `l`. -/
def fixEnds (q : QueueRef Q) (l : LinkId) (s : Store Q O) : Store Q O :=
  let s := if AQueueFirst q s = some l then s.setFirst q (s.next l) else s
  if AQueueLast q s = some l then s.setLast q (s.prev l) else s

/-- The list around link `l` is fixed. -/
def reconnect (l : LinkId) (s : Store Q O) : Store Q O :=
  let s := s.setNext? (s.prev l) (s.next l)
  s.setPrev? (s.next l) (s.prev l)

/-- Gets an empty link from the queue of free links. The removal is done by
hand, because `AQueueRemove` would put the link back on that queue. -/
def AQueueAllocLink (obj_to_store : O) (s : Store Q O) : Option LinkId × Store Q O :=
  if AQueueEmpty .freeLinks s then (none, s)
  else match AQueueFirst .freeLinks s with
    | none => (none, s)
    | some l =>
      let s := fixEnds .freeLinks l s
      let s := s.setNitems .freeLinks (AQueueLength .freeLinks s - 1)
      let s := reconnect l s
      let s := s.setNext l none
      let s := s.setPrev l none
      let s := s.setOwner l none
      (some l, s.setObject l (some obj_to_store))

/-- Removes the link that `*pl` names from its queue and gives it back to
`freeLinks`. The middle result is the new value of `*pl`. -/
def AQueueRemove (pl : Option LinkId) (s : Store Q O) : Nat × Option LinkId × Store Q O :=
  match pl with
  | none => (QUEUE_FAIL, pl, s)
  | some l => match s.queue l with
    | none => (QUEUE_FAIL, pl, s)
    | some q =>
      let s := fixEnds q l s
      let s := reconnect l s
      let s := s.setNitems q (AQueueLength q s - 1)
      (QUEUE_SUCCESS, none, (AQueueInsertLast .freeLinks (some l) s).2)

/-- The queue's own first and last pointers when link `l` moves to the place
after link `a`. -/
def moveEnds (q : QueueRef Q) (a l : LinkId) (s : Store Q O) : Store Q O :=
  let s := if AQueueFirst q s = some l then s.setFirst q (s.next l) else s
  if AQueueLast q s = some a then s.setLast q (some l) else s

/-- Moves link `l` to the position after link `after` in queue `q`. -/
def AQueueMoveAfter (q : QueueRef Q) (after l : Option LinkId) (s : Store Q O) :
    Nat × Store Q O :=
  match l with
  | none => (QUEUE_FAIL, s)
  | some l =>
    if s.queue l ≠ some q then (QUEUE_FAIL, s)
    else match after with
      | none =>
        if AQueueLength q s ≠ 1 then (QUEUE_FAIL, s)
        else if AQueueFirst q s ≠ AQueueLast q s then (QUEUE_FAIL, s)
        else (QUEUE_SUCCESS, s)
      | some a =>
        if s.queue a ≠ some q then (QUEUE_FAIL, s)
        else if a = l then (QUEUE_SUCCESS, s)
        else if AQueueLast q s = some l then (QUEUE_FAIL, s)
        else
          let s := moveEnds q a l s
          let s := s.setPrev? (s.next l) (s.prev l)
          let s := s.setNext? (s.prev l) (s.next l)
          let s := s.setPrev l (some a)
          let s := s.setNext l (s.next a)
          let s := s.setNext a (some l)
          (QUEUE_SUCCESS, s.setPrev? (s.next l) (some l))

/-- One turn of the loop of `AQueueModuleInit`. -/
def initLink (s : Store Q O) (i : LinkId) : Store Q O :=
  let s := s.setNext i none
  let s := s.setPrev i none
  let s := s.setObject i none
  (AQueueInsertLast .freeLinks (some i) s).2

def AQueueModuleInit (s : Store Q O) : Nat × Store Q O :=
  let s := (AQueueInit .freeLinks s).2
  (QUEUE_SUCCESS, (List.finRange QUEUE_MAX_LINKS).foldl initLink s)

/-- The links of queue `q`, read as the kernel reads a queue: from its
first link along the `next` pointers, as many as the queue counts. -/
def Store.links (s : Store Q O) (q : QueueRef Q) : List LinkId :=
  chain.walk s.next (s.nitems q).toNat (s.first q)

/-- The objects of queue `q`, first to last. -/
def Store.objects (s : Store Q O) (q : QueueRef Q) : List O :=
  (s.links q).filterMap s.object

end dlxos
