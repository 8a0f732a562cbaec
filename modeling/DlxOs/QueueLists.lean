-- The queue routines act on lists. `Lists s xs` says that each queue of the
-- store is the list of links that `xs` gives it, and each routine changes
-- the lists as its comment in `queue.c` describes.
import DlxOs.Queue

namespace dlxos

open chain Function

variable {Q O : Type} {s s' : Store Q O} {xs : QueueRef Q → List LinkId}

/-- Each queue of the store is a well formed doubly linked list. -/
structure Lists (s : Store Q O) (xs : QueueRef Q → List LinkId) : Prop where
  first : ∀ q, s.first q = (xs q).head?
  last : ∀ q, s.last q = (xs q).getLast?
  nitems : ∀ q, s.nitems q = (xs q).length
  seg : ∀ q, Seg s.next s.prev none (xs q) none
  queue : ∀ q, ∀ l ∈ xs q, s.queue l = some q
  nodup : ∀ q, (xs q).Nodup

/-- The link is on no queue. -/
def Off (xs : QueueRef Q → List LinkId) (l : LinkId) : Prop := ∀ q, l ∉ xs q

theorem Lists.disjoint (h : Lists s xs) {q r : QueueRef Q} {l : LinkId} (hq : l ∈ xs q)
    (hr : l ∈ xs r) : q = r := by
  have h1 := h.queue q l hq
  rw [h.queue r l hr] at h1
  exact (Option.some.inj h1).symm

theorem Lists.empty_iff (h : Lists s xs) (q : QueueRef Q) :
    AQueueEmpty q s = true ↔ xs q = [] := by
  simp [AQueueEmpty, AQueueLength, h.nitems q]

theorem Lists.links_eq (h : Lists s xs) (q : QueueRef Q) : s.links q = xs q := by
  simp [Store.links, h.nitems q, h.first q, (h.seg q).walk_eq]

theorem head_eq_iff {ys zs : List LinkId} {l : LinkId} (hd : (ys ++ l :: zs).Nodup) :
    (ys ++ l :: zs).head? = some l ↔ ys = [] := by
  rcases ys with _ | ⟨y, ys⟩
  · simp
  · rw [List.cons_append, List.nodup_cons] at hd
    simp only [List.cons_append, List.head?_cons, Option.some.injEq, reduceCtorEq, iff_false]
    rintro rfl
    simp at hd

theorem last_eq_iff {ys zs : List LinkId} {l : LinkId} (hd : (ys ++ l :: zs).Nodup) :
    (ys ++ l :: zs).getLast? = some l ↔ zs = [] := by
  rw [List.getLast?_append_of_ne_nil _ (by simp)]
  constructor
  · intro he
    by_contra hz
    rw [List.nodup_append] at hd
    rw [List.getLast?_cons_of_ne_nil hz] at he
    exact (List.nodup_cons.mp hd.2.1).1 (List.mem_of_getLast? he)
  · rintro rfl
    simp

/-- A link is the first one of its queue when nothing stands before it. -/
theorem Lists.first_iff (h : Lists s xs) {q : QueueRef Q} {ys zs : List LinkId} {l : LinkId}
    (hq : xs q = ys ++ l :: zs) : s.first q = some l ↔ ys = [] := by
  have hd := h.nodup q
  rw [hq] at hd
  rw [h.first q, hq]
  exact head_eq_iff hd

/-- A link is the last one of its queue when nothing stands after it. -/
theorem Lists.last_iff (h : Lists s xs) {q : QueueRef Q} {ys zs : List LinkId} {l : LinkId}
    (hq : xs q = ys ++ l :: zs) : s.last q = some l ↔ zs = [] := by
  have hd := h.nodup q
  rw [hq] at hd
  rw [h.last q, hq]
  exact last_eq_iff hd

/-! ## Taking a link out, and putting one in -/

variable [DecidableEq Q]

/-- A link that was taken out of its queue is on no queue. -/
theorem Lists.off_without (h : Lists s xs) {q : QueueRef Q} {ys zs : List LinkId} {l : LinkId}
    (hq : xs q = ys ++ l :: zs) : Off (update xs q (ys ++ zs)) l := by
  intro r hr
  have hd := h.nodup q
  rw [hq] at hd
  by_cases hrq : r = q
  · subst hrq
    rw [update_self] at hr
    exact (List.nodup_cons.mp (List.nodup_middle.mp hd)).1 hr
  · rw [update_of_ne hrq] at hr
    exact hrq (h.disjoint hr (by simp [hq]))

/-- A store in which only the neighbours of `l` changed, so that they point
past it, holds the lists without `l`. -/
theorem Lists.without (h : Lists s xs) {q : QueueRef Q} {ys zs : List LinkId} {l : LinkId}
    (hq : xs q = ys ++ l :: zs)
    (hn : ∀ x, x ≠ l → s'.next x = if ys.getLast? = some x then zs.head? else s.next x)
    (hp : ∀ x, x ≠ l → s'.prev x = if zs.head? = some x then ys.getLast? else s.prev x)
    (ho : ∀ x, x ≠ l → s'.queue x = s.queue x)
    (hfirst : s'.first = update s.first q (ys ++ zs).head?)
    (hlast : s'.last = update s.last q (ys ++ zs).getLast?)
    (hitems : s'.nitems = update s.nitems q (s.nitems q - 1)) :
    Lists s' (update xs q (ys ++ zs)) := by
  have hd := h.nodup q
  rw [hq] at hd
  have hl : l ∉ ys ++ zs := by
    have := List.nodup_middle.mp hd
    exact (List.nodup_cons.mp this).1
  have hd' : (ys ++ zs).Nodup := (List.nodup_cons.mp (List.nodup_middle.mp hd)).2
  have hmem : ∀ r, ∀ x ∈ update xs q (ys ++ zs) r, x ≠ l ∧ x ∈ xs r := by
    intro r x hx
    by_cases hr : r = q
    · subst hr
      rw [update_self] at hx
      refine ⟨fun he => hl (he ▸ hx), ?_⟩
      rw [hq]
      simp only [List.mem_append, List.mem_cons] at hx ⊢
      tauto
    · rw [update_of_ne hr] at hx
      refine ⟨fun he => hr (h.disjoint (l := l) (he ▸ hx) (by simp [hq])), hx⟩
  refine ⟨?_, ?_, ?_, ?_, ?_, ?_⟩
  · intro r
    rw [hfirst]
    by_cases hr : r = q
    · subst hr; simp
    · simp [hr, h.first r]
  · intro r
    rw [hlast]
    by_cases hr : r = q
    · subst hr; simp
    · simp [hr, h.last r]
  · intro r
    rw [hitems]
    by_cases hr : r = q
    · subst hr; simp [h.nitems r, hq]; omega
    · simp [hr, h.nitems r]
  · intro r
    by_cases hr : r = q
    · subst hr
      rw [update_self]
      have hseg := h.seg r
      rw [hq] at hseg
      have hne : ∀ x ∈ ys ++ zs, x ≠ l := fun x hx he => hl (he ▸ hx)
      refine hseg.remove hd ?_ ?_ ?_ ?_
      · intro x hx
        rw [hn x (hne x (by simp [List.mem_of_getLast? hx])), if_pos hx]; simp
      · intro x hx
        rw [hp x (hne x (by simp [List.mem_of_head? hx])), if_pos hx]; simp [before]
      · exact fun x hx hlx => by rw [hn x (hne x hx), if_neg hlx]
      · exact fun x hx hlx => by rw [hp x (hne x hx), if_neg hlx]
    · rw [update_of_ne hr]
      have hout : ∀ x ∈ xs r, x ∉ ys ++ l :: zs := fun x hx hm =>
        hr (h.disjoint hx (hq ▸ hm))
      refine (h.seg r).congr ?_ ?_
      · intro x hx
        have := hout x hx
        rw [hn x (fun he => this (by simp [he])),
          if_neg (fun he => this (by simp [List.mem_of_getLast? he]))]
      · intro x hx
        have := hout x hx
        rw [hp x (fun he => this (by simp [he])),
          if_neg (fun he => this (by simp [List.mem_of_head? he]))]
  · intro r x hx
    obtain ⟨h1, h2⟩ := hmem r x hx
    rw [ho x h1, h.queue r x h2]
  · intro r
    by_cases hr : r = q
    · subst hr; rw [update_self]; exact hd'
    · rw [update_of_ne hr]; exact h.nodup r

/-- A store in which only `l` and its new neighbours changed, so that it
stands between `ys` and `zs`, holds the lists with `l` there. -/
theorem Lists.with (h : Lists s xs) {q : QueueRef Q} {ys zs : List LinkId} {l : LinkId}
    (hq : xs q = ys ++ zs) (hoff : Off xs l)
    (hnl : s'.next l = zs.head?) (hpl : s'.prev l = ys.getLast?) (hol : s'.queue l = some q)
    (hn : ∀ x, x ≠ l → s'.next x = if ys.getLast? = some x then some l else s.next x)
    (hp : ∀ x, x ≠ l → s'.prev x = if zs.head? = some x then some l else s.prev x)
    (ho : ∀ x, x ≠ l → s'.queue x = s.queue x)
    (hfirst : s'.first = update s.first q (ys ++ l :: zs).head?)
    (hlast : s'.last = update s.last q (ys ++ l :: zs).getLast?)
    (hitems : s'.nitems = update s.nitems q (s.nitems q + 1)) :
    Lists s' (update xs q (ys ++ l :: zs)) := by
  have hl : l ∉ ys ++ zs := hq ▸ hoff q
  have hd : (ys ++ l :: zs).Nodup := by
    rw [List.nodup_middle, List.nodup_cons]
    exact ⟨hl, hq ▸ h.nodup q⟩
  have hne : ∀ r, ∀ x ∈ xs r, x ≠ l := fun r x hx he => hoff r (he ▸ hx)
  refine ⟨?_, ?_, ?_, ?_, ?_, ?_⟩
  · intro r
    rw [hfirst]
    by_cases hr : r = q
    · subst hr; simp
    · simp [hr, h.first r]
  · intro r
    rw [hlast]
    by_cases hr : r = q
    · subst hr; simp
    · simp [hr, h.last r]
  · intro r
    rw [hitems]
    by_cases hr : r = q
    · subst hr; simp [h.nitems r, hq]; omega
    · simp [hr, h.nitems r]
  · intro r
    by_cases hr : r = q
    · subst hr
      rw [update_self]
      have hseg := h.seg r
      rw [hq] at hseg
      have hne' : ∀ x ∈ ys ++ zs, x ≠ l := fun x hx he => hl (he ▸ hx)
      refine hseg.insert hd (by simpa [before] using hpl) (by simpa using hnl) ?_ ?_ ?_ ?_
      · intro x hx
        rw [hn x (hne' x (by simp [List.mem_of_getLast? hx])), if_pos hx]
      · intro x hx
        rw [hp x (hne' x (by simp [List.mem_of_head? hx])), if_pos hx]
      · exact fun x hx hlx => by rw [hn x (hne' x hx), if_neg hlx]
      · exact fun x hx hlx => by rw [hp x (hne' x hx), if_neg hlx]
    · rw [update_of_ne hr]
      have hout : ∀ x ∈ xs r, x ∉ ys ++ zs := fun x hx hm => hr (h.disjoint hx (hq ▸ hm))
      refine (h.seg r).congr ?_ ?_
      · intro x hx
        rw [hn x (hne r x hx), if_neg (fun he =>
          hout x hx (by simp [List.mem_of_getLast? he]))]
      · intro x hx
        rw [hp x (hne r x hx), if_neg (fun he => hout x hx (by simp [List.mem_of_head? he]))]
  · intro r x hx
    by_cases hr : r = q
    · subst hr
      rw [update_self] at hx
      by_cases hxl : x = l
      · rw [hxl, hol]
      · have : x ∈ xs r := by
          rw [hq]
          simp only [List.mem_append, List.mem_cons] at hx ⊢
          tauto
        rw [ho x hxl, h.queue r x this]
    · rw [update_of_ne hr] at hx
      rw [ho x (hne r x hx), h.queue r x hx]
  · intro r
    by_cases hr : r = q
    · subst hr; rw [update_self]; exact hd
    · rw [update_of_ne hr]; exact h.nodup r

/-! ## The routines -/

theorem AQueueInsertAfter.spec (h : Lists s xs) {q : QueueRef Q} {ys zs : List LinkId}
    {l : LinkId} (hoff : Off xs l) (hq : xs q = ys ++ zs) (hy : ys = [] → zs = []) :
    ∃ s', AQueueInsertAfter q ys.getLast? (some l) s = (QUEUE_SUCCESS, s') ∧
      Lists s' (update xs q (ys ++ l :: zs)) ∧ s'.object = s.object ∧
      s'.queue = update s.queue l (some q) := by
  rcases List.eq_nil_or_concat ys with rfl | ⟨ys, a, rfl⟩
  · obtain rfl := hy rfl
    have he : ¬ (AQueueFirst q s ≠ none ∨ AQueueLast q s ≠ none ∨ ¬ AQueueEmpty q s) := by
      simp [AQueueFirst, AQueueLast, h.first q, h.last q, h.empty_iff q, hq]
    have hz : s.nitems q = 0 := by simp [h.nitems q, hq]
    simp only [AQueueInsertAfter, List.getLast?_nil, if_neg he]
    refine ⟨_, rfl, ?_, rfl, rfl⟩
    apply h.with hq hoff <;> simp +contextual [hz]
  · have ha : a ∈ xs q := by simp [hq]
    have hal : a ≠ l := fun he => hoff q (he ▸ ha)
    have hnext : s.next a = zs.head? := by
      have hseg := h.seg q
      rw [hq, List.concat_eq_append, List.append_assoc, List.singleton_append] at hseg
      simpa using hseg.neighbours.2
    have hzl : zs.head? ≠ some l := fun he => hoff q (by simp [hq, List.mem_of_head? he])
    have hlast : AQueueLast q s = some a ↔ zs = [] := h.last_iff (by simpa using hq)
    simp only [AQueueInsertAfter, List.concat_eq_append, List.getLast?_append,
      List.getLast?_singleton, Option.some_or, h.queue q a ha, ne_eq, not_true_eq_false, if_false]
    refine ⟨_, rfl, ?_, ?_, ?_⟩
    · apply h.with (show xs q = (ys ++ [a]) ++ zs by simpa using hq) hoff
      · split <;> simp [hnext, Ne.symm hal]
      · split <;> simp [hnext, Ne.symm hal, hzl]
      · split <;> simp
      · intro x hx
        split <;> simp [update_apply, hx, eq_comm]
      · intro x hx
        split <;> simp [hx, hnext, Ne.symm hal]
      · intro x hx
        split <;> simp [hx]
      · split <;> simp [h.first q, hq]
      · have : zs ≠ [] → s.last q = (ys ++ [a] ++ l :: zs).getLast? := by
          intro hz
          rw [h.last q, hq, List.getLast?_append_of_ne_nil _ hz,
            List.getLast?_append_of_ne_nil _ (by simp), List.getLast?_cons_of_ne_nil hz]
        split
        · rename_i hc
          have := hlast.mp hc
          subst this
          simp
        · rename_i hc
          rw [← this (fun hz => hc (hlast.mpr hz))]
          simp
      · split <;> simp [AQueueLength]
    · split <;> rfl
    · split <;> rfl

theorem AQueueInsertLast.spec (h : Lists s xs) (q : QueueRef Q) {l : LinkId} (hoff : Off xs l) :
    ∃ s', AQueueInsertLast q (some l) s = (QUEUE_SUCCESS, s') ∧
      Lists s' (update xs q (xs q ++ [l])) ∧ s'.object = s.object ∧
      s'.queue = update s.queue l (some q) := by
  simp only [AQueueInsertLast, AQueueLast, h.last q, reduceCtorEq, if_false]
  exact AQueueInsertAfter.spec h hoff (by simp) (by simp)

theorem AQueueInsertBefore.spec (h : Lists s xs) {q : QueueRef Q} {ys zs : List LinkId}
    {l : LinkId} (hoff : Off xs l) (hq : xs q = ys ++ zs) (hz : zs = [] → ys = []) :
    ∃ s', AQueueInsertBefore q zs.head? (some l) s = (QUEUE_SUCCESS, s') ∧
      Lists s' (update xs q (ys ++ l :: zs)) ∧ s'.object = s.object ∧
      s'.queue = update s.queue l (some q) := by
  rcases zs with _ | ⟨b, zs⟩
  · obtain rfl := hz rfl
    have he : ¬ (AQueueFirst q s ≠ none ∨ AQueueLast q s ≠ none ∨ ¬ AQueueEmpty q s) := by
      simp [AQueueFirst, AQueueLast, h.first q, h.last q, h.empty_iff q, hq]
    have hn : s.nitems q = 0 := by simp [h.nitems q, hq]
    simp only [AQueueInsertBefore, List.head?_nil, if_neg he]
    refine ⟨_, rfl, ?_, rfl, rfl⟩
    apply h.with hq hoff <;> simp +contextual [hn]
  · have hb : b ∈ xs q := by simp [hq]
    have hbl : b ≠ l := fun he => hoff q (he ▸ hb)
    have hseg := h.seg q
    rw [hq] at hseg
    have hprev : s.prev b = ys.getLast? := by simpa [before] using hseg.neighbours.1
    have hyl : ys.getLast? ≠ some l := fun he => hoff q (by simp [hq, List.mem_of_getLast? he])
    have hfirst : AQueueFirst q s = some b ↔ ys = [] := h.first_iff hq
    simp only [AQueueInsertBefore, List.head?_cons, h.queue q b hb, ne_eq, not_true_eq_false,
      if_false]
    refine ⟨_, rfl, ?_, ?_, ?_⟩
    · apply h.with hq hoff
      · split <;> simp [hprev, Ne.symm hbl, hyl]
      · split <;> simp [hprev, Ne.symm hbl]
      · split <;> simp
      · intro x hx
        split <;> simp [hx, hprev, Ne.symm hbl]
      · intro x hx
        split <;> simp [update_apply, hx, eq_comm]
      · intro x hx
        split <;> simp [hx]
      · have : ys ≠ [] → s.first q = (ys ++ l :: b :: zs).head? := by
          intro hy
          rw [h.first q, hq, List.head?_append_of_ne_nil _ hy, List.head?_append_of_ne_nil _ hy]
        split
        · rename_i hc
          have := hfirst.mp hc
          subst this
          simp
        · rename_i hc
          rw [← this (fun hy => hc (hfirst.mpr hy))]
          simp
      · split <;> simp [h.last q, hq, List.getLast?_append, List.getLast?_cons]
      · split <;> simp [AQueueLength]
    · split <;> rfl
    · split <;> rfl

theorem AQueueInsertFirst.spec (h : Lists s xs) (q : QueueRef Q) {l : LinkId} (hoff : Off xs l) :
    ∃ s', AQueueInsertFirst q (some l) s = (QUEUE_SUCCESS, s') ∧
      Lists s' (update xs q (l :: xs q)) ∧ s'.object = s.object ∧
      s'.queue = update s.queue l (some q) := by
  simp only [AQueueInsertFirst, AQueueFirst, h.first q, reduceCtorEq, if_false]
  exact AQueueInsertBefore.spec h hoff (List.nil_append (xs q)).symm (by simp)

theorem fixEnds_eq (q : QueueRef Q) (l : LinkId) (s : Store Q O) :
    fixEnds q l s = { s with
      first := if s.first q = some l then update s.first q (s.next l) else s.first
      last := if s.last q = some l then update s.last q (s.prev l) else s.last } := by
  unfold fixEnds AQueueFirst AQueueLast
  by_cases h1 : s.first q = some l <;> by_cases h2 : s.last q = some l <;>
    simp [h1, h2, Store.setFirst, Store.setLast]

theorem moveEnds_eq (q : QueueRef Q) (a l : LinkId) (s : Store Q O) :
    moveEnds q a l s = { s with
      first := if s.first q = some l then update s.first q (s.next l) else s.first
      last := if s.last q = some a then update s.last q (some l) else s.last } := by
  unfold moveEnds AQueueFirst AQueueLast
  by_cases h1 : s.first q = some l <;> by_cases h2 : s.last q = some a <;>
    simp [h1, h2, Store.setFirst, Store.setLast]

/-- The ends of a list without one of its links. -/
theorem Lists.ends_without (h : Lists s xs) {q : QueueRef Q} {ys zs : List LinkId} {l : LinkId}
    (hq : xs q = ys ++ l :: zs) :
    (fixEnds q l s).first = update s.first q (ys ++ zs).head? ∧
      (fixEnds q l s).last = update s.last q (ys ++ zs).getLast? := by
  have hd := h.nodup q
  rw [hq] at hd
  have hout := (List.nodup_cons.mp (List.nodup_middle.mp hd)).1
  have hseg := h.seg q
  rw [hq] at hseg
  obtain ⟨hprev, hnext⟩ := hseg.neighbours
  rw [fixEnds_eq]
  constructor
  · rcases ys with _ | ⟨y, ys⟩
    · simp [h.first q, hq, hnext]
    · have hne : y ≠ l := by rintro rfl; simp at hout
      have : s.first q = some y := by simp [h.first q, hq]
      simp only [this, Option.some.injEq, hne, if_false, List.cons_append, List.head?_cons]
      rw [← this, update_eq_self]
  · rcases List.eq_nil_or_concat zs with rfl | ⟨zs, z, rfl⟩
    · simp [h.last q, hq, hprev, before]
    · have hne : z ≠ l := by rintro rfl; simp at hout
      have : s.last q = some z := by
        rw [h.last q, hq, List.concat_eq_append, List.getLast?_append_of_ne_nil _ (by simp),
          List.getLast?_cons_of_ne_nil (by simp), List.getLast?_concat]
      simp only [this, Option.some.injEq, hne, if_false, List.concat_eq_append,
        ← List.append_assoc, List.getLast?_concat]
      rw [← this, update_eq_self]

theorem AQueueAllocLink.spec (h : Lists s xs) (o : O) {l : LinkId} {fs : List LinkId}
    (hf : xs .freeLinks = l :: fs) :
    ∃ s', AQueueAllocLink o s = (some l, s') ∧ Lists s' (update xs .freeLinks fs) ∧
      Off (update xs .freeLinks fs) l ∧ s'.object = update s.object l (some o) ∧
      s'.queue = update s.queue l none := by
  have hne : ¬ AQueueEmpty .freeLinks s := by simp [h.empty_iff, hf]
  have hfirst : AQueueFirst .freeLinks s = some l := by simp [AQueueFirst, h.first, hf]
  have hseg := h.seg .freeLinks
  rw [hf, ← List.nil_append (l :: fs)] at hseg
  obtain ⟨hprev, hnext⟩ := hseg.neighbours
  obtain ⟨hfst, hlst⟩ := h.ends_without (show xs .freeLinks = [] ++ l :: fs from hf)
  simp only [AQueueAllocLink, if_neg hne, hfirst, reconnect]
  refine ⟨_, rfl, ?_, ?_, ?_, ?_⟩
  · apply h.without (show xs .freeLinks = [] ++ l :: fs from hf)
    · simp +contextual [fixEnds_eq, hprev, before]
    · simp +contextual [fixEnds_eq, hprev, hnext, before]
    · simp +contextual [fixEnds_eq]
    · simpa using hfst
    · simpa using hlst
    · simp [fixEnds_eq, AQueueLength]
  · exact h.off_without (show xs .freeLinks = [] ++ l :: fs from hf)
  · simp [fixEnds_eq]
  · simp [fixEnds_eq]

theorem AQueueRemove.spec (h : Lists s xs) {q : QueueRef Q} {ys zs : List LinkId} {l : LinkId}
    (hq : xs q = ys ++ l :: zs) (hf : q ≠ .freeLinks) :
    ∃ s', AQueueRemove (some l) s = (QUEUE_SUCCESS, none, s') ∧
      Lists s' (update (update xs q (ys ++ zs)) .freeLinks (xs .freeLinks ++ [l])) ∧
      s'.object = s.object ∧ s'.queue = update s.queue l (some .freeLinks) := by
  have hl : l ∈ xs q := by simp [hq]
  have hseg := h.seg q
  rw [hq] at hseg
  obtain ⟨hprev, hnext⟩ := hseg.neighbours
  obtain ⟨hfst, hlst⟩ := h.ends_without hq
  simp only [AQueueRemove, h.queue q l hl, reconnect]
  generalize hT : Store.setNitems _ q _ = T
  have hmid : Lists T (update xs q (ys ++ zs)) := by
    subst hT
    apply h.without hq
    · simp [fixEnds_eq, hprev, hnext, before]
    · simp [fixEnds_eq, hprev, hnext, before]
    · simp [fixEnds_eq]
    · simpa using hfst
    · simpa using hlst
    · simp [fixEnds_eq, AQueueLength]
  have hobj : T.object = s.object := by subst hT; simp [fixEnds_eq]
  have hown : T.queue = s.queue := by subst hT; simp [fixEnds_eq]
  obtain ⟨s', hs', hl', ho', hq'⟩ := AQueueInsertLast.spec hmid .freeLinks (h.off_without hq)
  refine ⟨s', by rw [hs'], ?_, by rw [ho', hobj], by rw [hq', hown]⟩
  rwa [update_of_ne (Ne.symm hf)] at hl'

/-- The store with `l` out of `q`, which then holds `rest`; the fields of `l` stay. -/
def Store.joined (s : Store Q O) (q : QueueRef Q) (l : LinkId) (rest : List LinkId) :
    Store Q O :=
  { s with
    next := fun x => if s.prev l = some x then s.next l else s.next x
    prev := fun x => if s.next l = some x then s.prev l else s.prev x
    first := update s.first q rest.head?
    last := update s.last q rest.getLast?
    nitems := update s.nitems q (s.nitems q - 1) }

theorem Lists.joined (h : Lists s xs) {q : QueueRef Q} {as bs : List LinkId} {l : LinkId}
    (hq : xs q = as ++ l :: bs) :
    Lists (s.joined q l (as ++ bs)) (update xs q (as ++ bs)) := by
  have hseg := h.seg q
  rw [hq] at hseg
  obtain ⟨hprev, hnext⟩ := hseg.neighbours
  simp only [before, Option.or_none] at hprev hnext
  apply h.without hq <;> simp [Store.joined, hprev, hnext]

/-- A link moves to the place right after another link of its queue. -/
theorem AQueueMoveAfter.spec (h : Lists s xs) {q : QueueRef Q} {as bs ys zs : List LinkId}
    {l a : LinkId} (hq : xs q = as ++ l :: bs) (hb : bs ≠ [])
    (hrest : as ++ bs = ys ++ a :: zs) :
    ∃ s', AQueueMoveAfter q (some a) (some l) s = (QUEUE_SUCCESS, s') ∧
      Lists s' (update xs q (ys ++ a :: l :: zs)) ∧ s'.object = s.object ∧
      s'.queue = s.queue := by
  have hl : l ∈ xs q := by simp [hq]
  have hd := h.nodup q
  rw [hq] at hd
  have hout := (List.nodup_cons.mp (List.nodup_middle.mp hd)).1
  have hin := (List.nodup_cons.mp (List.nodup_middle.mp hd)).2
  rw [hrest] at hout hin
  have ha : a ∈ xs q := by
    have : a ∈ as ++ bs := by simp [hrest]
    rw [hq]
    simp only [List.mem_append, List.mem_cons] at this ⊢
    tauto
  have hal : a ≠ l := by rintro rfl; simp at hout
  have hseg := h.seg q
  rw [hq] at hseg
  obtain ⟨hprev, hnext⟩ := hseg.neighbours
  simp only [before, Option.or_none] at hprev hnext
  have hlast : s.last q = (ys ++ a :: zs).getLast? := by
    rw [h.last q, hq, ← hrest, List.getLast?_append_of_ne_nil _ (by simp),
      List.getLast?_cons_of_ne_nil hb, List.getLast?_append_of_ne_nil _ hb]
  have hlastl : AQueueLast q s ≠ some l := by
    rw [AQueueLast, hlast]
    exact fun he => hout (List.mem_of_getLast? he)
  -- first `l` is taken out, as `AQueueRemove` does it
  have hmid := h.joined hq
  have hoff := h.off_without hq
  rw [hrest] at hmid hoff
  have hmnext : (if s.prev l = some a then s.next l else s.next a) = zs.head? := by
    have := hmid.seg q
    rw [update_self] at this
    simpa [Store.joined] using this.neighbours.2
  have hzl : zs.head? ≠ some l := fun he => hout (by simp [List.mem_of_head? he])
  have hfirst : s.first q = some l ↔ as = [] := h.first_iff hq
  have hlasta : s.last q = some a ↔ zs = [] := by
    rw [hlast]
    exact last_eq_iff hin
  simp only [AQueueMoveAfter, h.queue q l hl, h.queue q a ha, ne_eq, not_true_eq_false, if_false,
    hal, hlastl]
  refine ⟨_, rfl, ?_, ?_, ?_⟩
  · have hxs : update xs q (ys ++ a :: l :: zs) =
        update (update xs q (ys ++ a :: zs)) q (ys ++ [a] ++ l :: zs) := by simp
    rw [hxs]
    apply hmid.with (show update xs q (ys ++ a :: zs) q = (ys ++ [a]) ++ zs by simp) hoff
    · simpa [moveEnds_eq, Ne.symm hal] using hmnext
    · simp [moveEnds_eq, hmnext, Ne.symm hal, hzl]
    · simpa [moveEnds_eq] using h.queue q l hl
    · intro x hx
      simp [moveEnds_eq, Store.joined, hx, update_apply, eq_comm]
    · intro x hx
      simp [moveEnds_eq, Store.joined, hx, hmnext, Ne.symm hal]
    · simp [moveEnds_eq, Store.joined]
    · have hhead : (ys ++ [a] ++ l :: zs).head? = (as ++ bs).head? := by simp [hrest]
      rw [hhead]
      by_cases hc : as = []
      · simp [moveEnds_eq, Store.joined, hfirst.mpr hc, hnext, hc]
      · have : s.first q = (as ++ bs).head? := by
          rw [h.first, hq, List.head?_append_of_ne_nil _ hc, List.head?_append_of_ne_nil _ hc]
        simp [moveEnds_eq, Store.joined, mt hfirst.mp hc, ← this]
    · by_cases hc : zs = []
      · simp [moveEnds_eq, Store.joined, hlasta.mpr hc, hc]
      · have : s.last q = (ys ++ [a] ++ l :: zs).getLast? := by
          rw [hlast, List.getLast?_append_of_ne_nil _ (by simp), List.getLast?_cons_of_ne_nil hc,
            List.getLast?_append_of_ne_nil _ (by simp), List.getLast?_cons_of_ne_nil hc]
        rw [← this]
        simp [moveEnds_eq, Store.joined, mt hlasta.mp hc]
    · simp [moveEnds_eq, Store.joined]
  · simp [moveEnds_eq]
  · simp [moveEnds_eq]

/-- Moving the first link after the last one turns the list by one place. -/
theorem AQueueMoveAfter.rotate (h : Lists s xs) {q : QueueRef Q} {l : LinkId}
    {ls : List LinkId} (hq : xs q = l :: ls) :
    ∃ s', AQueueMoveAfter q (AQueueLast q s) (AQueueFirst q s) s = (QUEUE_SUCCESS, s') ∧
      Lists s' (update xs q (ls ++ [l])) ∧ s'.object = s.object ∧ s'.queue = s.queue := by
  rcases List.eq_nil_or_concat ls with rfl | ⟨ms, a, rfl⟩
  · refine ⟨s, ?_, by simpa [← hq] using h, rfl, rfl⟩
    simp [AQueueMoveAfter, AQueueFirst, AQueueLast, h.first q, h.last q, hq,
      h.queue q l (by simp [hq])]
  · have hlast : AQueueLast q s = some a := by simp [AQueueLast, h.last q, hq, List.getLast?_cons]
    have hfirst : AQueueFirst q s = some l := by simp [AQueueFirst, h.first q, hq]
    rw [hlast, hfirst]
    have hrest : [] ++ ms.concat a = ms ++ a :: [] := by simp
    simpa using AQueueMoveAfter.spec h (show xs q = [] ++ l :: ms.concat a from hq) (by simp) hrest

/-! ## The start -/

theorem initLink.spec (h : Lists s xs) {l : LinkId} (hoff : Off xs l) :
    Lists (initLink s l) (update xs .freeLinks (xs .freeLinks ++ [l])) := by
  have h' : Lists (((s.setNext l none).setPrev l none).setObject l none) xs := by
    refine ⟨h.first, h.last, h.nitems, ?_, h.queue, h.nodup⟩
    intro q
    have hne : ∀ x ∈ xs q, x ≠ l := fun x hx he => hoff q (he ▸ hx)
    apply (h.seg q).congr
    · intro x hx; simp [hne x hx]
    · intro x hx; simp [hne x hx]
  obtain ⟨s', hs', hl', -⟩ := AQueueInsertLast.spec h' .freeLinks hoff
  simpa [initLink, hs'] using hl'

theorem initLinks.spec (h : Lists s xs) (ls : List LinkId) (hd : ls.Nodup)
    (hoff : ∀ l ∈ ls, Off xs l) :
    Lists (ls.foldl initLink s) (update xs .freeLinks (xs .freeLinks ++ ls)) := by
  induction ls generalizing s xs with
  | nil => simpa using h
  | cons l ls ih =>
    rw [List.nodup_cons] at hd
    have hnext := ih (initLink.spec h (hoff l (by simp))) hd.2 ?_
    · simpa using hnext
    · intro x hx q
      have hxl : x ≠ l := fun he => hd.1 (he ▸ hx)
      by_cases hq : q = .freeLinks
      · subst hq
        simpa [hxl] using hoff x (by simp [hx]) .freeLinks
      · rw [update_of_ne hq]
        exact hoff x (by simp [hx]) q

/-- After `AQueueModuleInit`, every link of the pool is free. -/
theorem AQueueModuleInit.spec (h : Lists s fun _ => []) :
    ∃ s', AQueueModuleInit s = (QUEUE_SUCCESS, s') ∧
      Lists s' (update (fun _ => []) .freeLinks (List.finRange QUEUE_MAX_LINKS)) := by
  refine ⟨_, rfl, ?_⟩
  have h' : Lists (AQueueInit .freeLinks s).2 fun _ => [] := by
    refine ⟨?_, ?_, ?_, fun _ => trivial, by simp, by simp⟩
    all_goals intro q; by_cases hq : q = .freeLinks
    all_goals simp [AQueueInit, hq, h.first, h.last, h.nitems]
  simpa using initLinks.spec h' _ (List.nodup_finRange _) (by simp [Off])

end dlxos
