-- The buffer of the producers and consumers of `q2`, `q3` and `q4`. The three
-- headers `buffer.h` are the same, and so is what `makeprocs.c` does after it
-- has created the processes. What the lines of a program do to the buffer is
-- counted process by process.
import DlxOs.Kernel
import DlxOs.MonitorRules
import Mathlib.Algebra.BigOperators.Group.Finset.Sigma
import Mathlib.Data.Fintype.BigOperators
import Mathlib.Data.Fintype.Sum
import Mathlib.Tactic.DeriveFintype

namespace dlxos

open Function monitor

def BUFFER_SIZE : Nat := 64
def ITEM_SIZE : Nat := 10
def BUF_ITEM : String := "0123456789"

/-- The shared page. The indices only grow, and past the 64 cells of
`char_buf` lies the rest of the page. -/
structure CircularBuffer where
  head : Nat
  tail : Nat
  char_buf : Nat → Char

/-- The buffer with its history, which no program reads: the characters that
were inserted and removed, and the cells whose character was not removed. -/
structure Buffer extends CircularBuffer where
  inserted : List Char
  removed : List Char
  unread : Nat → Bool

/-- The buffer as `makeprocs` leaves it. -/
def Buffer.empty : Buffer := ⟨⟨0, 0, fun _ => '\x00'⟩, [], [], fun _ => false⟩

/-- `cb->char_buf[cb->head++] = c;` -/
def Buffer.insert (cb : Buffer) (c : Char) : Buffer where
  head := cb.head + 1
  tail := cb.tail
  char_buf := update cb.char_buf cb.head c
  inserted := cb.inserted ++ [c]
  removed := cb.removed
  unread := update cb.unread cb.head true

/-- `out_char = cb->char_buf[cb->tail++];` -/
def Buffer.remove (cb : Buffer) : Buffer where
  head := cb.head
  tail := cb.tail + 1
  char_buf := cb.char_buf
  inserted := cb.inserted
  removed := cb.removed ++ [cb.char_buf cb.tail]
  unread := update cb.unread cb.tail false

/-- `(cb->head+1)%BUFFER_SIZE == cb->tail` -/
def Buffer.full (cb : Buffer) : Bool := (cb.head + 1) % BUFFER_SIZE == cb.tail

/-- `cb->head == cb->tail` -/
def Buffer.isEmpty (cb : Buffer) : Bool := cb.head == cb.tail

/-- `out_content[out_curr_idx]` -/
def out_content (out_curr_idx : Nat) : Char := BUF_ITEM.toList.getD out_curr_idx '\x00'

/-! ## The processes -/

/-- `makeprocs`, and the pairs that it has created. -/
inductive Proc (N : Nat) where
  | makeprocs
  | producer (i : Fin N)
  | consumer (i : Fin N)
deriving DecidableEq, Fintype

/-- The process table has room for `makeprocs` and `N` pairs. -/
def FitsTable (N : Nat) : Prop := 2 * N + 1 ≤ PROCESS_MAX_PROCS

/-- A place in the program of a producer or of a consumer. -/
structure Loc (Line : Type) where
  line : Line
  out_curr_idx : Nat
deriving DecidableEq

/-- The end of `makeprocs.c`. -/
inductive ParentLine where
  | wait
  | done
deriving DecidableEq

def makeprocs {V C M : Type} (s_procs_completed : M) : ParentLine → Op ParentLine V C M
  | .wait => .semWait s_procs_completed .done
  | .done => .done

/-- The count with which `makeprocs.c` creates `s_procs_completed`. -/
def procsCompleted (N : Nat) : Int := -((N : Int) * 2 - 1)

/-! ## Accounts -/

/-- A statement that uses `char_buf`. -/
inductive Access where
  | insert
  | remove
deriving DecidableEq

/-- What a statement does to the buffer. -/
def Does : Option Access → Buffer → Buffer → Prop
  | none, cb, cb' => cb' = cb
  | some .insert, cb, cb' => ∃ c, cb' = cb.insert c
  | some .remove, cb, cb' => cb' = cb.remove

variable {N : Nat} {L : Proc N → Type} {C M : Type}

/-- A process is about to use `char_buf`. -/
def Accesses (does : ∀ p, L p → Option Access) (s : State (Proc N) L Buffer C M) (p : Proc N)
    (x : Access) : Prop := ∃ l, s.pc p = .ready l ∧ does p l = some x

/-- What is expected of the buffer. -/
structure BufferOk (does : ∀ p, L p → Option Access) (s : State (Proc N) L Buffer C M) : Prop where
  inserts : ∀ p, Accesses does s p .insert → s.shared.mem.head < BUFFER_SIZE
  removes : ∀ p, Accesses does s p .remove → s.shared.mem.tail < BUFFER_SIZE
  capacity : s.shared.mem.inserted.length ≤ s.shared.mem.removed.length + BUFFER_SIZE
  fresh : ∀ p, Accesses does s p .insert → s.shared.mem.unread s.shared.mem.head = false
  fifo : s.shared.mem.removed <+: s.shared.mem.inserted

variable [DecidableEq C] [DecidableEq M]
  {g : Program (Proc N) L Buffer C M} {s t : State (Proc N) L Buffer C M} {p : Proc N}

/-- How many characters a process may insert. -/
def share : Proc N → Int
  | .producer _ => ITEM_SIZE
  | .makeprocs | .consumer _ => 0

/-- The processes, as a sum of types. -/
def Proc.equiv : Unit ⊕ (Fin N ⊕ Fin N) ≃ Proc N where
  toFun
    | .inl () => .makeprocs
    | .inr (.inl i) => .producer i
    | .inr (.inr i) => .consumer i
  invFun
    | .makeprocs => .inl ()
    | .producer i => .inr (.inl i)
    | .consumer i => .inr (.inr i)
  left_inv := by rintro (_ | _ | _) <;> rfl
  right_inv := by rintro (_ | _ | _) <;> rfl

theorem sum_proc (f : Proc N → Int) :
    ∑ p, f p = f .makeprocs + (∑ i, f (.producer i) + ∑ i, f (.consumer i)) := by
  rw [← Equiv.sum_comp Proc.equiv]
  simp [Fintype.sum_sum_type, Proc.equiv]

theorem sum_share : ∑ p : Proc N, share p = ITEM_SIZE * N := by
  simp [sum_proc, share, mul_comm]

/-- Where all the others have given their unit, `makeprocs` finds one. -/
theorem procs_completed {f : Proc N → Int} {n : Int} (hlaw : n + ∑ p, f p = procsCompleted N)
    (hparent : f .makeprocs = 0) (hgot : ∀ p, p ≠ .makeprocs → f p = -1) : n = 1 := by
  rw [sum_proc, hparent, Finset.sum_congr rfl fun i _ => hgot (.producer i) (by simp),
    Finset.sum_congr rfl fun i _ => hgot (.consumer i) (by simp)] at hlaw
  simp only [Finset.sum_const, Finset.card_univ, Fintype.card_fin, nsmul_eq_mul,
    procsCompleted] at hlaw
  omega

/-- With as many processes as the table has room for, a semaphore stays small. -/
theorem count_small {f : Proc N → Int} {n c : Int} (hN : FitsTable N)
    (hlaw : n + ∑ p, f p = c) (hc : c ≤ 64) (hf : ∀ p, -11 ≤ f p) : n + 1 < 2 ^ 31 := by
  have hsum := Finset.sum_le_sum fun p (_ : p ∈ Finset.univ) => hf p
  rw [sum_proc fun _ => -11] at hsum
  simp only [Finset.sum_const, Finset.card_univ, Fintype.card_fin, nsmul_eq_mul] at hsum
  simp only [FitsTable, PROCESS_MAX_PROCS] at hN
  omega

/-- How many characters each process has inserted and removed at a place of
its program. -/
structure Accounts (g : Program (Proc N) L Buffer C M) where
  does : ∀ p, L p → Option Access
  made : ∀ p, L p → Int
  took : ∀ p, L p → Int
  /-- What a place in a program can be. -/
  sane : ∀ p, L p → Prop
  mem : g.mem = .empty
  start : ∀ p, sane p (g.start p) ∧ made p (g.start p) = 0 ∧ took p (g.start p) = 0
  step : ∀ {p l cb l' cb'}, sane p l → (g.op p l).next cb = some (l', cb') →
    sane p l' ∧ made p l' = made p l + (if does p l = some .insert then 1 else 0) ∧
      took p l' = took p l + (if does p l = some .remove then 1 else 0) ∧ Does (does p l) cb cb'
  /-- A producer has one item. -/
  most : ∀ p l, sane p l → made p l + (if does p l = some .insert then 1 else 0) ≤ share p

namespace Accounts

/-- The indices count what the processes have done. -/
structure Counts (a : Accounts g) (locs : ∀ p, L p) (cb : Buffer) : Prop where
  sane : ∀ p, a.sane p (locs p)
  head : (cb.head : Int) = ∑ p, a.made p (locs p)
  tail : (cb.tail : Int) = ∑ p, a.took p (locs p)

theorem counts (a : Accounts g) (h : g.Reachable s) : a.Counts s.locs s.shared.mem := by
  refine data_rule (g := g) (J := a.Counts) ⟨fun p => (a.start p).1, ?_, ?_⟩ ?_ h
  · simp [a.mem, Buffer.empty, (a.start _).2]
  · simp [a.mem, Buffer.empty, (a.start _).2]
  intro locs cb p l cb' hJ hn
  obtain ⟨hsane, hmade, htook, hdoes⟩ := a.step (hJ.sane p) hn
  have hindex : (cb'.head : Int) = cb.head + (if a.does p (locs p) = some .insert then 1 else 0) ∧
      (cb'.tail : Int) = cb.tail + if a.does p (locs p) = some .remove then 1 else 0 := by
    rcases hd : a.does p (locs p) with _ | _ | _ <;> rw [hd] at hdoes
    · obtain rfl : cb' = cb := hdoes
      simp
    · obtain ⟨c, rfl⟩ := hdoes
      simp [Buffer.insert]
    · obtain rfl : cb' = cb.remove := hdoes
      simp [Buffer.remove]
  refine ⟨fun q => ?_, ?_, ?_⟩
  · by_cases hq : q = p
    · subst hq
      rwa [update_self]
    · rw [update_of_ne hq]
      exact hJ.sane q
  · rw [sum_update, hindex.1, hmade, hJ.head]
    omega
  · rw [sum_update, hindex.2, htook, hJ.tail]
    omega

omit [DecidableEq C] [DecidableEq M] in
/-- The items of all producers bound the number of insertions. -/
theorem Counts.head_le {a : Accounts g} {locs : ∀ p, L p} {cb : Buffer} (h : a.Counts locs cb)
    (p : Proc N) :
    (cb.head : Int) + (if a.does p (locs p) = some .insert then 1 else 0) ≤ ITEM_SIZE * N := by
  have hsum : ∑ q, (a.made q (locs q) +
      if q = p then (if a.does p (locs p) = some .insert then 1 else 0) else 0) ≤
        ∑ q : Proc N, share q := by
    refine Finset.sum_le_sum fun q _ => ?_
    have hmost := a.most q (locs q) (h.sane q)
    by_cases hq : q = p
    · subst hq
      rw [if_pos rfl]
      exact hmost
    · rw [if_neg hq]
      split at hmost <;> omega
  rw [Finset.sum_add_distrib, Finset.sum_ite_eq', if_pos (Finset.mem_univ p), sum_share,
    ← h.head] at hsum
  exact hsum

omit [DecidableEq C] [DecidableEq M] in
/-- A process that removes only what is there keeps the indices in order. -/
theorem order (a : Accounts g) {l l' : L p} {cb cb' : Buffer} (hl : a.sane p l)
    (hn : (g.op p l).next cb = some (l', cb')) (hle : cb.tail ≤ cb.head)
    (hrem : a.does p l = some .remove → cb.tail < cb.head) : cb'.tail ≤ cb'.head := by
  obtain ⟨_, _, _, hdoes⟩ := a.step hl hn
  rcases hd : a.does p l with _ | _ | _ <;> rw [hd] at hdoes
  · exact hdoes ▸ hle
  · obtain ⟨c, rfl⟩ := hdoes
    exact Nat.le_succ_of_le hle
  · exact hdoes ▸ hrem hd

/-- Processes that test for a character before they remove one, inside their
section. A process that sleeps between the test and the removal does so at a
place where nobody wakes it. -/
structure Tests (a : Accounts g) (dead : Place C M → Prop) : Prop where
  inside : ∀ {p l}, a.does p l = some .remove → g.inside p l = true
  start : ∀ p, a.does p (g.start p) ≠ some .remove
  goes : ∀ {p l x cb cb'}, (g.op p l).Goes cb x cb' → a.does p x.loc = some .remove →
    x = .ready x.loc ∧ cb' = cb ∧ cb.head ≠ cb.tail ∨ ∃ w, dead w ∧ x = .asleep w x.loc
  unwoken : ∀ {p l w}, dead w → ¬ (g.op p l).Wakes w

/-- What a process knows when it is about to remove a character. -/
def Knows (a : Accounts g) (dead : Place C M → Prop) (p : Proc N) (x : Point (L p) C M)
    (_ : ∀ p, L p) (cb : Buffer) : Prop :=
  cb.tail ≤ cb.head ∧ (a.does p x.loc = some .remove →
    x = .ready x.loc ∧ cb.tail < cb.head ∨ ∃ w, dead w ∧ x = .asleep w x.loc)

omit [DecidableEq C] [DecidableEq M] in
theorem Knows.ready {a : Accounts g} {dead : Place C M → Prop} {locs : ∀ p, L p} {cb : Buffer}
    (h : a.Knows dead p (.ready (locs p)) locs cb) (hd : a.does p (locs p) = some .remove) :
    cb.tail < cb.head := by
  rcases h.2 hd with ⟨_, hlt⟩ | ⟨w, _, he⟩
  · exact hlt
  · cases he

omit [DecidableEq C] [DecidableEq M] in
theorem Tests.outline {a : Accounts g} {dead : Place C M → Prop} (h : a.Tests dead) :
    Outline g a.Counts (a.Knows dead) where
  start p := ⟨by rw [a.mem]; exact le_rfl, fun hd => absurd hd (h.start p)⟩
  own := by
    intro p locs cb x cb' hJ hk hg
    refine ⟨a.order (hJ.sane p) hg.next hk.1 hk.ready, fun hx => ?_⟩
    rcases h.goes hg hx with ⟨hready, rfl, hne⟩ | hasleep
    · have := hk.1
      exact .inl ⟨hready, by omega⟩
    · exact .inr hasleep
  again := by
    intro p locs cb _ hk
    have hne : a.does p (locs p) ≠ some .remove := fun hd => by
      rcases hk.2 hd with ⟨he, _⟩ | ⟨w, _, he⟩ <;> cases he
    exact ⟨⟨hk.1, fun hd => absurd hd hne⟩, ⟨hk.1, fun hd => absurd hd hne⟩⟩
  woke := by
    intro p q locs cb l cb' w _ hJ hk hkq hw hn
    have hne : a.does q (locs q) ≠ some .remove := fun hd => by
      rcases hkq.2 hd with ⟨he, _⟩ | ⟨w', hdead, he⟩
      · cases he
      · cases he
        exact h.unwoken hdead hw
    exact ⟨a.order (hJ.sane p) hn hk.1 hk.ready, fun hd => absurd (by simpa using hd) hne⟩
  frame := by
    intro p q x locs cb l cb' hq hJ hk hkq hx hn hin _
    refine ⟨a.order (hJ.sane p) hn hk.1 hk.ready, fun hd => ?_⟩
    rcases hkq.2 hd with ⟨hready, hlt⟩ | hasleep
    · refine .inl ⟨hready, ?_⟩
      cases hp : g.inside p (locs p) with
      | false => exact next_outside hn hp ▸ hlt
      | true => exact absurd (hx ▸ hready) (hin hp (h.inside (hx ▸ hd)))
    · exact .inr hasleep

/-- A removal finds a character. -/
theorem Tests.finds {a : Accounts g} {dead : Place C M → Prop} (h : a.Tests dead)
    (hr : g.Reachable s) (hp : Accesses a.does s p .remove) :
    s.shared.mem.tail < s.shared.mem.head := by
  obtain ⟨l, hpc, hd⟩ := hp
  have hk := h.outline.holds (fun s => a.counts) hr p
  rw [hpc] at hk
  rcases hk.2 hd with ⟨_, hlt⟩ | ⟨w, _, he⟩
  · exact hlt
  · cases he

/-- The buffer and its history agree. -/
structure History (cb : Buffer) : Prop where
  order : cb.tail ≤ cb.head
  inserted : cb.inserted = (List.range cb.head).map cb.char_buf
  removed : cb.removed = (List.range cb.tail).map cb.char_buf
  unread : ∀ j, cb.unread j = true ↔ cb.tail ≤ j ∧ j < cb.head

theorem History.empty : History .empty := by
  refine ⟨le_refl _, rfl, rfl, fun j => ?_⟩
  simp [Buffer.empty]

theorem History.insert {cb : Buffer} (h : History cb) (c : Char) : History (cb.insert c) := by
  have hle := h.order
  have hmap : ∀ n ≤ cb.head, (List.range n).map (update cb.char_buf cb.head c) =
      (List.range n).map cb.char_buf := by
    intro n hn
    refine List.map_congr_left fun j hj => update_of_ne ?_ ..
    have := List.mem_range.mp hj
    omega
  refine ⟨?_, ?_, ?_, fun j => ?_⟩
  · simp only [Buffer.insert]
    omega
  · simp only [Buffer.insert, List.range_succ, List.map_append, hmap _ (le_refl _), h.inserted]
    simp
  · simp only [Buffer.insert, hmap _ hle, h.removed]
  · simp only [Buffer.insert]
    by_cases hj : j = cb.head
    · subst hj
      simp [hle]
    · rw [update_of_ne hj, h.unread]
      omega

theorem History.remove {cb : Buffer} (h : History cb) (hlt : cb.tail < cb.head) :
    History cb.remove := by
  refine ⟨hlt, h.inserted, ?_, fun j => ?_⟩
  · simp [Buffer.remove, List.range_succ, h.removed]
  · simp only [Buffer.remove]
    by_cases hj : j = cb.tail
    · subst hj
      simp
    · rw [update_of_ne hj, h.unread]
      omega

omit [DecidableEq C] [DecidableEq M] in
theorem History.fifo {cb : Buffer} (h : History cb) : cb.removed <+: cb.inserted := by
  have htake : List.range cb.tail = (List.range cb.head).take cb.tail := by
    rw [List.take_range, min_eq_left h.order]
  rw [h.inserted, h.removed, htake]
  exact (List.take_prefix _ _).map _

/-- Where no process removes from an empty buffer, the history is right. -/
theorem history (a : Accounts g)
    (hrem : ∀ s, g.Reachable s → ∀ p, Accesses a.does s p .remove →
      s.shared.mem.tail < s.shared.mem.head)
    (h : g.Reachable s) : History s.shared.mem := by
  obtain ⟨tr, hr⟩ := h
  refine (hr.invariant (I := fun s => g.Reachable s ∧ History s.shared.mem) ?_
    ⟨.init, (show g.init.shared.mem = .empty from a.mem) ▸ History.empty⟩).2
  rintro s p t ⟨hreach, hist⟩ hs
  refine ⟨hreach.step hs, ?_⟩
  rcases step_data hs with ⟨_, hmem⟩ | ⟨l, v, hpc, hnext, _, rfl⟩
  · rw [hmem]
    exact hist
  · obtain ⟨_, _, _, hdoes⟩ := a.step ((a.counts hreach).sane p) hnext
    rcases hd : a.does p (s.locs p) with _ | _ | _ <;> rw [hd] at hdoes
    · exact hdoes ▸ hist
    · obtain ⟨c, hc⟩ := hdoes
      exact hc ▸ hist.insert c
    · exact hdoes ▸ hist.remove (hrem s hreach p ⟨_, hpc, hd⟩)

/-- Up to six pairs insert no more than 60 characters, which fit in the buffer
without an index that wraps. -/
theorem ok (a : Accounts g)
    (hrem : ∀ s, g.Reachable s → ∀ p, Accesses a.does s p .remove →
      s.shared.mem.tail < s.shared.mem.head)
    (hN : N ≤ 6) (h : g.Reachable s) : BufferOk a.does s := by
  have hist := a.history hrem h
  have hhead := (a.counts h).head_le
  have hsmall : ITEM_SIZE * N ≤ 60 := Nat.mul_le_mul_left _ hN
  have hle : s.shared.mem.head ≤ 60 := by
    have := hhead .makeprocs
    split at this <;> omega
  refine ⟨fun p hp => ?_, fun p hp => ?_, ?_, fun p hp => ?_, ?_⟩
  · simp only [BUFFER_SIZE]
    omega
  · have := hrem s h p hp
    simp only [BUFFER_SIZE]
    omega
  · rw [hist.inserted, hist.removed]
    simp only [List.length_map, List.length_range, BUFFER_SIZE]
    omega
  · rw [Bool.eq_false_iff, ne_eq, hist.unread]
    omega
  · exact hist.fifo

end Accounts

/-! ## A full buffer -/

/-- The producers have inserted `n` characters, up to nine each, and no
consumer has run. -/
structure Filled (g : Program (Proc N) L Buffer C M) (loop : ∀ i, Nat → L (.producer i))
    (Sh : Nat → Shared (Proc N) Buffer C M → Prop) (n : Nat)
    (s : State (Proc N) L Buffer C M) : Prop where
  reachable : g.Reachable s
  producers : ∀ i, s.pc (.producer i) = .ready (loop i (min 9 (n - 9 * i.val)))
  consumers : ∀ i, s.pc (.consumer i) = .ready (g.start (.consumer i))
  shared : Sh n s.shared

/-- Seven producers that insert one character at each turn of their loops fill
the buffer up to its last cell. -/
theorem exists_filled (loop : ∀ i, Nat → L (.producer i))
    (Sh : Nat → Shared (Proc N) Buffer C M → Prop)
    (hstart : ∀ i, g.start (.producer i) = loop i 0) (h0 : Sh 0 g.init.shared)
    (hround : ∀ n i k sh, n < 63 → k < 9 → Sh n sh → ∃ m sh',
      g.alone (.producer i) m (.ready (loop i k), sh) = some (.ready (loop i (k + 1)), sh') ∧
        Sh (n + 1) sh')
    (hN : 7 ≤ N) : ∀ n ≤ 63, ∃ s, Filled g loop Sh n s := by
  intro n
  induction n with
  | zero =>
    intro _
    refine ⟨g.init, .init, fun i => ?_, fun i => rfl, h0⟩
    simp [Program.init, hstart]
  | succ n ih =>
    intro hn
    obtain ⟨s, hs⟩ := ih (by omega)
    let i : Fin N := ⟨n / 9, by omega⟩
    have hpc : s.pc (.producer i) = .ready (loop i (n % 9)) := by
      rw [hs.producers]
      congr 2
      simp only [i]
      omega
    obtain ⟨m, sh, halone, hsh⟩ := hround n i (n % 9) s.shared (by omega) (by omega) hs.shared
    obtain ⟨t, ht, hi, hshared, hother⟩ := hs.reachable.alone hpc halone
    refine ⟨t, ht, fun j => ?_, fun j => ?_, hshared ▸ hsh⟩
    · by_cases hj : j = i
      · subst hj
        rw [hi]
        simp only [i]
        congr 2
        omega
      · have hne : j.val ≠ n / 9 := fun h => hj (Fin.ext h)
        rw [hother _ (by simpa using hj), hs.producers]
        congr 2
        omega
    · rw [hother _ (by simp), hs.consumers]

end dlxos
