-- Doubly linked chains over any type of nodes. A chain is read off two
-- pointer maps, so the facts below hold of any store that keeps a `next`
-- and a `prev` for each of its nodes.
import Mathlib.Data.List.Basic
import Mathlib.Data.List.Nodup

namespace chain

variable {L : Type} {next prev next' prev' : L → Option L}

/-- The nodes of the list follow each other. `p` is the node before the
first one, and `n` is the node after the last one. -/
def Seg (next prev : L → Option L) : Option L → List L → Option L → Prop
  | _, [], _ => True
  | p, x :: xs, n => prev x = p ∧ next x = xs.head?.or n ∧ Seg next prev (some x) xs n

/-- The last node of the list, or `p` where the list is empty. -/
abbrev before (xs : List L) (p : Option L) : Option L := xs.getLast?.or p

theorem before_cons (x : L) (xs : List L) (p : Option L) :
    before (x :: xs) p = before xs (some x) := by
  cases xs <;> simp [before, List.getLast?_cons]

theorem seg_append (xs ys : List L) (p n : Option L) :
    Seg next prev p (xs ++ ys) n ↔
      Seg next prev p xs (ys.head?.or n) ∧ Seg next prev (before xs p) ys n := by
  induction xs generalizing p with
  | nil => simp [Seg, before]
  | cons x xs ih =>
    simp only [List.cons_append, Seg, ih, before_cons]
    cases xs <;> simp [Seg, and_assoc]

theorem seg_cons (x : L) (xs : List L) (p n : Option L) :
    Seg next prev p (x :: xs) n ↔
      prev x = p ∧ next x = xs.head?.or n ∧ Seg next prev (some x) xs n := Iff.rfl

theorem Seg.congr {xs : List L} {p n : Option L} (h : Seg next prev p xs n)
    (hn : ∀ x ∈ xs, next' x = next x) (hp : ∀ x ∈ xs, prev' x = prev x) :
    Seg next' prev' p xs n := by
  induction xs generalizing p with
  | nil => trivial
  | cons x xs ih =>
    obtain ⟨h1, h2, h3⟩ := h
    refine ⟨by rw [hp x (by simp), h1], by rw [hn x (by simp), h2], ?_⟩
    exact ih h3 (fun y hy => hn y (by simp [hy])) (fun y hy => hp y (by simp [hy]))

/-- Only the last node learns of a new node after the chain. -/
theorem Seg.leave {xs : List L} {p n n' : Option L} (h : Seg next prev p xs n) (hd : xs.Nodup)
    (hlast : ∀ x, xs.getLast? = some x → next' x = n')
    (hn : ∀ x ∈ xs, xs.getLast? ≠ some x → next' x = next x)
    (hp : ∀ x ∈ xs, prev' x = prev x) : Seg next' prev' p xs n' := by
  induction xs generalizing p with
  | nil => trivial
  | cons x xs ih =>
    obtain ⟨h1, h2, h3⟩ := h
    rw [List.nodup_cons] at hd
    rcases xs with _ | ⟨y, ys⟩
    · exact ⟨by rw [hp x (by simp), h1], by simpa using hlast x (by simp), trivial⟩
    · have hx : (y :: ys).getLast? ≠ some x :=
        fun he => hd.1 (List.mem_of_getLast? he)
      refine ⟨by rw [hp x (by simp), h1], ?_, ?_⟩
      · rw [hn x (by simp) (by simpa [List.getLast?_cons] using hx), h2]
        simp
      · refine ih h3 hd.2 ?_ ?_ (fun z hz => hp z (by simp [hz]))
        · intro z hz
          exact hlast z (by simpa [List.getLast?_cons] using hz)
        · intro z hz hne
          exact hn z (by simp [hz]) (by simpa [List.getLast?_cons] using hne)

/-- Only the first node learns of a new node before the chain. -/
theorem Seg.enter {xs : List L} {p p' n : Option L} (h : Seg next prev p xs n) (hd : xs.Nodup)
    (hhead : ∀ x, xs.head? = some x → prev' x = p')
    (hp : ∀ x ∈ xs, xs.head? ≠ some x → prev' x = prev x)
    (hn : ∀ x ∈ xs, next' x = next x) : Seg next' prev' p' xs n := by
  rcases xs with _ | ⟨x, xs⟩
  · trivial
  · obtain ⟨_, h2, h3⟩ := h
    rw [List.nodup_cons] at hd
    refine ⟨hhead x (by simp), by rw [hn x (by simp), h2], ?_⟩
    refine h3.congr (fun y hy => hn y (by simp [hy])) (fun y hy => hp y (by simp [hy]) ?_)
    intro he
    simp only [List.head?_cons, Option.some.injEq] at he
    exact hd.1 (he ▸ hy)

/-- The neighbours of a node of a chain. -/
theorem Seg.neighbours {ys zs : List L} {l : L} {p n : Option L}
    (h : Seg next prev p (ys ++ l :: zs) n) :
    prev l = before ys p ∧ next l = zs.head?.or n := by
  rw [seg_append, seg_cons] at h
  exact ⟨h.2.1, h.2.2.1⟩

/-- Taking a node out: its neighbours now point at each other. -/
theorem Seg.remove {ys zs : List L} {l : L} {p n : Option L}
    (h : Seg next prev p (ys ++ l :: zs) n) (hd : (ys ++ l :: zs).Nodup)
    (hlast : ∀ x, ys.getLast? = some x → next' x = zs.head?.or n)
    (hhead : ∀ x, zs.head? = some x → prev' x = before ys p)
    (hn : ∀ x ∈ ys ++ zs, ys.getLast? ≠ some x → next' x = next x)
    (hp : ∀ x ∈ ys ++ zs, zs.head? ≠ some x → prev' x = prev x) :
    Seg next' prev' p (ys ++ zs) n := by
  rw [seg_append, seg_cons] at h
  obtain ⟨hy, _, _, hz⟩ := h
  obtain ⟨dy, dz, dis⟩ := List.nodup_append.mp hd
  rw [List.nodup_cons] at dz
  rw [seg_append]
  refine ⟨hy.leave dy hlast ?_ ?_, hz.enter dz.2 hhead ?_ ?_⟩
  · exact fun x hx hne => hn x (by simp [hx]) hne
  · exact fun x hx => hp x (by simp [hx])
      (fun he => dis x hx x (by simp [List.mem_of_head? he]) rfl)
  · exact fun x hx hne => hp x (by simp [hx]) hne
  · exact fun x hx => hn x (by simp [hx])
      (fun he => dis x (List.mem_of_getLast? he) x (by simp [hx]) rfl)

/-- Putting a new node between two parts of a chain. -/
theorem Seg.insert {ys zs : List L} {l : L} {p n : Option L}
    (h : Seg next prev p (ys ++ zs) n) (hd : (ys ++ l :: zs).Nodup)
    (hpl : prev' l = before ys p) (hnl : next' l = zs.head?.or n)
    (hlast : ∀ x, ys.getLast? = some x → next' x = some l)
    (hhead : ∀ x, zs.head? = some x → prev' x = some l)
    (hn : ∀ x ∈ ys ++ zs, ys.getLast? ≠ some x → next' x = next x)
    (hp : ∀ x ∈ ys ++ zs, zs.head? ≠ some x → prev' x = prev x) :
    Seg next' prev' p (ys ++ l :: zs) n := by
  rw [seg_append] at h
  obtain ⟨hy, hz⟩ := h
  obtain ⟨dy, dz, dis⟩ := List.nodup_append.mp hd
  rw [List.nodup_cons] at dz
  rw [seg_append, seg_cons]
  refine ⟨hy.leave dy hlast ?_ ?_, hpl, hnl, hz.enter dz.2 hhead ?_ ?_⟩
  · exact fun x hx hne => hn x (by simp [hx]) hne
  · exact fun x hx => hp x (by simp [hx])
      (fun he => dis x hx x (by simp [List.mem_of_head? he]) rfl)
  · exact fun x hx hne => hp x (by simp [hx]) hne
  · exact fun x hx => hn x (by simp [hx])
      (fun he => dis x (List.mem_of_getLast? he) x (by simp [hx]) rfl)

/-- The nodes met from `p` on, at most `fuel` of them. -/
def walk (next : L → Option L) : Nat → Option L → List L
  | 0, _ => []
  | _, none => []
  | fuel + 1, some x => x :: walk next fuel (next x)

/-- A walk along a whole chain meets its nodes in order. -/
theorem Seg.walk_eq {xs : List L} {p : Option L} (h : Seg next prev p xs none) :
    walk next xs.length xs.head? = xs := by
  induction xs generalizing p with
  | nil => rfl
  | cons x xs ih =>
    obtain ⟨_, h2, h3⟩ := h
    simp only [List.length_cons, List.head?_cons, walk, h2, Option.or_none]
    rw [ih h3]

end chain
