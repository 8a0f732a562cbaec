-- The producers and consumers of `q2`, which share the buffer under a lock
-- alone.
import DlxOs.SharedBuffer

namespace dlxos.q2

open Function monitor

/-! ## The programs -/

/-- A line of `producer.c`. -/
inductive ProducerLine where
  | loop
  | test
  | insert
  | release
  | done
deriving DecidableEq

/-- A line of `consumer.c`. -/
inductive ConsumerLine where
  | loop
  | test
  | remove
  | release
  | done
deriving DecidableEq

/-- The semaphores of the programs. -/
inductive Sem where
  | s_procs_completed
deriving DecidableEq

def producer (l : Loc ProducerLine) : Op (Loc ProducerLine) Buffer Empty Sem :=
  let i := l.out_curr_idx
  match l.line with
  | .loop =>
    if i < ITEM_SIZE then .acquire ⟨.test, i⟩ else .semSignal .s_procs_completed ⟨.done, i⟩
  | .test => .access fun cb => (cb, if cb.full then ⟨.release, i⟩ else ⟨.insert, i⟩)
  | .insert => .access fun cb => (cb.insert (out_content i), ⟨.release, i + 1⟩)
  | .release => .release ⟨.loop, i⟩
  | .done => .done

def consumer (l : Loc ConsumerLine) : Op (Loc ConsumerLine) Buffer Empty Sem :=
  let i := l.out_curr_idx
  match l.line with
  | .loop =>
    if i < ITEM_SIZE then .acquire ⟨.test, i⟩ else .semSignal .s_procs_completed ⟨.done, i⟩
  | .test => .access fun cb => (cb, if cb.isEmpty then ⟨.release, i⟩ else ⟨.remove, i⟩)
  | .remove => .access fun cb => (cb.remove, ⟨.release, i + 1⟩)
  | .release => .release ⟨.loop, i⟩
  | .done => .done

variable {N : Nat}

def L : Proc N → Type
  | .makeprocs => ParentLine
  | .producer _ => Loc ProducerLine
  | .consumer _ => Loc ConsumerLine

/-- The lines between `lock_acquire` and `lock_release`. -/
def inside : ∀ p : Proc N, L p → Bool
  | .makeprocs, _ => false
  | .producer _, l => l.line ≠ .loop && l.line ≠ .done
  | .consumer _, l => l.line ≠ .loop && l.line ≠ .done

theorem producer_obeys (i : Fin N) (l : Loc ProducerLine) :
    (producer l).Obeys (inside (.producer i)) (inside (.producer i) l) := by
  rcases l with ⟨_ | _ | _ | _ | _, i⟩ <;> simp only [producer]
  · split <;> simp [Op.Obeys, inside]
  · refine ⟨rfl, fun cb => ?_⟩
    dsimp only
    split <;> rfl
  all_goals simp [Op.Obeys, inside]

theorem consumer_obeys (i : Fin N) (l : Loc ConsumerLine) :
    (consumer l).Obeys (inside (.consumer i)) (inside (.consumer i) l) := by
  rcases l with ⟨_ | _ | _ | _ | _, i⟩ <;> simp only [consumer]
  · split <;> simp [Op.Obeys, inside]
  · refine ⟨rfl, fun cb => ?_⟩
    dsimp only
    split <;> rfl
  all_goals simp [Op.Obeys, inside]

/-- The processes that `makeprocs` creates, and its own wait for them. -/
def program (N : Nat) : Program (Proc N) L Buffer Empty Sem where
  op
    | .makeprocs => makeprocs .s_procs_completed
    | .producer _ => producer
    | .consumer _ => consumer
  inside := inside
  obeys
    | .makeprocs, l => by cases l <;> simp [makeprocs, Op.Obeys, inside]
    | .producer i, l => producer_obeys i l
    | .consumer i, l => consumer_obeys i l
  start
    | .makeprocs => .wait
    | .producer _ => ⟨.loop, 0⟩
    | .consumer _ => ⟨.loop, 0⟩
  outside := by rintro (_ | i | i) <;> rfl
  mem := .empty
  count _ := procsCompleted N

/-! ## Accounts -/

/-- The lines that use `char_buf`. -/
def does : ∀ p : Proc N, L p → Option Access
  | .makeprocs, _ => none
  | .producer _, l => if l.line = .insert then some .insert else none
  | .consumer _, l => if l.line = .remove then some .remove else none

theorem does_remove {i : Fin N} {l : Loc ConsumerLine} :
    does (.consumer i) l = some .remove ↔ l.line = .remove := by
  simp [does]

theorem does_producer {i : Fin N} {l : Loc ProducerLine} :
    does (.producer i) l ≠ some .remove := by
  simp [does]

/-- What a place in a program can be. -/
def sane : ∀ p : Proc N, L p → Prop
  | .makeprocs, _ => True
  | .producer _, l => l.out_curr_idx + (if l.line = .test ∨ l.line = .insert then 1 else 0) ≤
      ITEM_SIZE
  | .consumer _, _ => True

def made : ∀ p : Proc N, L p → Int
  | .producer _, l => l.out_curr_idx
  | .makeprocs, _ | .consumer _, _ => 0

def took : ∀ p : Proc N, L p → Int
  | .consumer _, l => l.out_curr_idx
  | .makeprocs, _ | .producer _, _ => 0

theorem producer_step {i : Fin N} {l l' : Loc ProducerLine} {cb cb' : Buffer}
    (hl : sane (.producer i) l) (hn : (producer l).next cb = some (l', cb')) :
    sane (.producer i) l' ∧
      (l'.out_curr_idx : Int) = l.out_curr_idx + (if l.line = .insert then 1 else 0) ∧
      Does (if l.line = .insert then some .insert else none) cb cb' := by
  rcases l with ⟨_ | _ | _ | _ | _, k⟩ <;> simp only [producer] at hn
  · split at hn <;> cases hn
    · simpa [sane, Does] using by assumption
    · simp_all [sane, Does]
  · cases hn
    by_cases hfull : cb.full = true
    · simp_all [sane, Does]
      omega
    · simp_all [sane, Does]
  · cases hn
    simp_all [sane, Does]
  · cases hn
    simp_all [sane, Does]
  · cases hn

theorem consumer_step {l l' : Loc ConsumerLine} {cb cb' : Buffer}
    (hn : (consumer l).next cb = some (l', cb')) :
    (l'.out_curr_idx : Int) = l.out_curr_idx + (if l.line = .remove then 1 else 0) ∧
      Does (if l.line = .remove then some .remove else none) cb cb' := by
  rcases l with ⟨_ | _ | _ | _ | _, k⟩ <;> simp only [consumer] at hn
  · split at hn <;> cases hn <;> simp [Does]
  · cases hn
    by_cases he : cb.isEmpty = true <;> simp [Does, he]
  · cases hn
    simp [Does]
  · cases hn
    simp [Does]
  · cases hn

theorem account_step {p : Proc N} {l l' : L p} {cb cb' : Buffer} (hl : sane p l)
    (hn : ((program N).op p l).next cb = some (l', cb')) :
    sane p l' ∧ made p l' = made p l + (if does p l = some .insert then 1 else 0) ∧
      took p l' = took p l + (if does p l = some .remove then 1 else 0) ∧
      Does (does p l) cb cb' := by
  rcases p with _ | i | i
  · cases l <;> cases hn
    simp [sane, made, took, does, Does]
  · obtain ⟨hs, hm, hd⟩ := producer_step hl hn
    refine ⟨hs, ?_, ?_, hd⟩
    · simpa [made, does] using hm
    · simp [took, does]
  · obtain ⟨ht, hd⟩ := consumer_step hn
    refine ⟨trivial, ?_, ?_, hd⟩
    · simp [made, does]
    · simpa [took, does] using ht

/-- `out_curr_idx` counts the characters of a process. -/
def accounts (N : Nat) : Accounts (program N) where
  does := does
  made := made
  took := took
  sane := sane
  mem := rfl
  start := by rintro (_ | i | i) <;> simp [program, sane, made, took]
  step := account_step
  most := by
    rintro (_ | i | i) l hl
    · simp [does, share, made]
    · simp only [sane] at hl
      by_cases h : l.line = .insert
      · simp only [does, made, share, if_pos h, if_true]
        rw [if_pos (.inr h)] at hl
        exact_mod_cast hl
      · simp only [does, made, share, if_neg h, reduceCtorEq, if_false, Int.add_zero]
        exact_mod_cast Nat.le_of_add_right_le hl
    · simp [does, share, made]

/-! ## What a consumer knows -/

/-- The test of a consumer finds a character. -/
theorem consumer_goes {l : Loc ConsumerLine} {x : Point (Loc ConsumerLine) Empty Sem}
    {cb cb' : Buffer} (h : (consumer l).Goes cb x cb') (hx : x.loc.line = .remove) :
    x = .ready x.loc ∧ cb' = cb ∧ cb.head ≠ cb.tail := by
  rcases l with ⟨_ | _ | _ | _ | _, k⟩ <;> simp only [consumer] at h
  · split at h <;> cases h <;> cases hx
  · cases h
    by_cases he : cb.isEmpty = true
    · simp [he] at hx
    · refine ⟨rfl, rfl, ?_⟩
      simpa [Buffer.isEmpty] using he
  · cases h
    cases hx
  · cases h
    cases hx
  · cases h

theorem tests (N : Nat) : (accounts N).Tests fun _ => False where
  inside := by
    rintro (_ | i | i) l hd
    · cases hd
    · exact absurd hd (does_producer (i := i))
    · have hline := (does_remove (i := i)).mp hd
      simp [program, inside, hline]
  start := by rintro (_ | i | i) hd <;> cases hd
  goes := by
    rintro (_ | i | i) l x cb cb' hg hd
    · cases hd
    · exact absurd hd (does_producer (i := i))
    · exact .inl (consumer_goes hg ((does_remove (i := i)).mp hd))
  unwoken := by simp

/-! ## Seven pairs -/

/-- The buffer while nobody has the lock. -/
structure Free (h t : Nat) (sh : Shared (Proc N) Buffer Empty Sem) : Prop where
  lock : sh.lock = ⟨none, []⟩
  head : sh.mem.head = h
  tail : sh.mem.tail = t

variable {i : Fin N} {k h t : Nat} {sh : Shared (Proc N) Buffer Empty Sem}

theorem Free.full (hsh : Free h t sh) : sh.mem.full = ((h + 1) % BUFFER_SIZE == t) := by
  rw [Buffer.full, hsh.head, hsh.tail]

/-- One turn of the loop of a producer, while nobody else runs. -/
theorem produce (hk : k < ITEM_SIZE) (hsh : Free h t sh) (hfull : (h + 1) % BUFFER_SIZE ≠ t) :
    ∃ sh', (program N).alone (.producer i) 4 (.ready ⟨.loop, k⟩, sh) =
      some (.ready ⟨.loop, k + 1⟩, sh') ∧ Free (h + 1) t sh' := by
  have hf : sh.mem.full = false := by rw [hsh.full]; simpa using hfull
  refine ⟨{ sh with mem := sh.mem.insert (out_content k) }, ?_, hsh.lock, ?_, hsh.tail⟩
  · simp [Program.alone, program, producer, Shared.effect, Shared.take, fifo.Lock.apply, hk, hf,
      Shared.handed, hsh.lock]
  · simp [Buffer.insert, hsh.head]

/-- A producer that comes to the insertion. -/
theorem comes_to_insert (hk : k < ITEM_SIZE) (hsh : Free h t sh)
    (hfull : (h + 1) % BUFFER_SIZE ≠ t) :
    ∃ sh', (program N).alone (.producer i) 2 (.ready ⟨.loop, k⟩, sh) =
      some (.ready ⟨.insert, k⟩, sh') ∧ sh'.mem.head = h := by
  have hf : sh.mem.full = false := by rw [hsh.full]; simpa using hfull
  refine ⟨{ sh with lock := ⟨some (.producer i), []⟩ }, ?_, hsh.head⟩
  simp [Program.alone, program, producer, Shared.effect, Shared.take, fifo.Lock.apply, hk, hf,
    hsh.lock]

/-- One turn of the loop of a consumer. -/
theorem consume (hk : k < ITEM_SIZE) (hsh : Free h t sh) (hlt : t < h) :
    ∃ sh', (program N).alone (.consumer i) 4 (.ready ⟨.loop, k⟩, sh) =
      some (.ready ⟨.loop, k + 1⟩, sh') ∧ Free h (t + 1) sh' := by
  have he : sh.mem.isEmpty = false := by
    rw [Buffer.isEmpty, hsh.head, hsh.tail]
    simp only [beq_eq_false_iff_ne, ne_eq]
    omega
  refine ⟨{ sh with mem := sh.mem.remove }, ?_, hsh.lock, hsh.head, ?_⟩
  · simp [Program.alone, program, consumer, Shared.effect, Shared.take, fifo.Lock.apply, hk, he,
      Shared.handed, hsh.lock]
  · simp [Buffer.remove, hsh.tail]

/-- Seven producers fill the buffer, a consumer removes two characters, and
then an insertion goes to cell 64. -/
theorem exists_overflow (hN : 7 ≤ N) : ∃ s, (program N).Reachable s ∧
    ∃ p, Accesses does s p .insert ∧ s.shared.mem.head = BUFFER_SIZE := by
  obtain ⟨s, hs⟩ := exists_filled (g := program N) (fun _ k => ⟨.loop, k⟩)
    (fun n => Free n 0) (fun _ => rfl) ⟨rfl, rfl, rfl⟩ (fun n i k sh hn hk hsh =>
      ⟨4, produce (by simp only [ITEM_SIZE]; omega) hsh (by simp only [BUFFER_SIZE]; omega)⟩)
    hN 63 le_rfl
  let first : Fin N := ⟨0, by omega⟩
  let second : Fin N := ⟨1, by omega⟩
  -- the consumer makes room for two characters
  obtain ⟨sh1, hrun1, hsh1⟩ := consume (i := first) (k := 0) (by decide) hs.shared (by omega)
  obtain ⟨s1, hr1, hpc1, rfl, hother1⟩ := hs.reachable.alone (hs.consumers first) hrun1
  obtain ⟨sh2, hrun2, hsh2⟩ := consume (i := first) (k := 1) (by decide) hsh1 (by omega)
  obtain ⟨s2, hr2, _, rfl, hother2⟩ := hr1.alone hpc1 hrun2
  -- one character goes to the last cell, and the next one past it
  have hpc2 : s2.pc (.producer first) = .ready ⟨.loop, 9⟩ := by
    rw [hother2 _ (by simp), hother1 _ (by simp), hs.producers]
    rfl
  obtain ⟨sh3, hrun3, hsh3⟩ := produce (i := first) (k := 9) (by decide) hsh2 (by decide)
  obtain ⟨s3, hr3, _, rfl, hother3⟩ := hr2.alone hpc2 hrun3
  have hpc3 : s3.pc (.producer second) = .ready ⟨.loop, 9⟩ := by
    rw [hother3 _ (by simp [first, second]), hother2 _ (by simp), hother1 _ (by simp),
      hs.producers]
    rfl
  obtain ⟨sh4, hrun4, hhead⟩ := comes_to_insert (i := second) (k := 9) (by decide) hsh3 (by decide)
  obtain ⟨s4, hr4, hpc4, rfl, _⟩ := hr3.alone hpc3 hrun4
  exact ⟨s4, hr4, .producer second, ⟨_, hpc4, by simp [does]⟩, hhead⟩

theorem buffer_iff (N : Nat) :
    (∀ s, (program N).Reachable s → BufferOk does s) ↔ N ≤ 6 := by
  constructor
  · intro h
    by_contra hN
    obtain ⟨s, hs, p, hp, hhead⟩ := exists_overflow (N := N) (by omega)
    have := (h s hs).inserts p hp
    omega
  · intro hN s hs
    exact (accounts N).ok (fun s hs p => (tests N).finds hs) hN hs

end dlxos.q2
