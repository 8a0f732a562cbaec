-- The queues of the kernel as lists of processes. `Rep qs Q` says that the
-- store holds, for each queue, the processes that `Q` gives it, and that the
-- field `l` of a process is its link on a process queue. The pool has more
-- links than the processes can ever hold, so a link is always free.
import DlxOs.QueueLists
import DlxOs.Process

namespace dlxos

open Function

/-- What the links of `xs` hold. `hand` is a link that was taken for a
process and is on no queue yet. -/
structure RepBy (qs : Queues) (xs : QueueRef KQueue → List LinkId) (Q : KQueue → List Pid)
    (hand : Option (LinkId × Pid)) : Prop where
  lists : Lists qs.store xs
  objects : ∀ q, (xs (.client q)).map qs.store.object = (Q q).map some
  all : ∀ l, (∃ q, l ∈ xs q) ∨ ∃ p, hand = some (l, p)
  held : ∀ q, q.isProc = true → ∀ l ∈ xs (.client q), ∀ p,
    qs.store.object l = some p → qs.link p = some l
  taken : ∀ l p, hand = some (l, p) → Off xs l ∧ qs.store.object l = some p

/-- The store holds the lists of `Q`. -/
def Rep (qs : Queues) (Q : KQueue → List Pid) : Prop := ∃ xs, RepBy qs xs Q none

/-- The store holds the lists of `Q`, and link `l` is in hand for process `p`. -/
def Holding (qs : Queues) (Q : KQueue → List Pid) (l : LinkId) (p : Pid) : Prop :=
  ∃ xs, RepBy qs xs Q (some (l, p))

/-- A process waits at most once over all objects of `synch.c`. -/
structure WaitsOnce (Q : KQueue → List Pid) : Prop where
  nodup : ∀ q, q.isProc = false → (Q q).Nodup
  unique : ∀ q r p, q.isProc = false → r.isProc = false → p ∈ Q q → p ∈ Q r → q = r

variable {qs : Queues} {xs : QueueRef KQueue → List LinkId} {Q : KQueue → List Pid}
  {hand : Option (LinkId × Pid)}

/-! ## Reading the queues -/

theorem RepBy.exists_link (h : RepBy qs xs Q hand) {q : KQueue} {p : Pid} (hp : p ∈ Q q) :
    ∃ l ∈ xs (.client q), qs.store.object l = some p := by
  have : some p ∈ (xs (.client q)).map qs.store.object := by
    rw [h.objects q]; exact List.mem_map_of_mem hp
  simpa using this

theorem RepBy.exists_object (h : RepBy qs xs Q hand) {q : KQueue} {l : LinkId}
    (hl : l ∈ xs (.client q)) : ∃ p ∈ Q q, qs.store.object l = some p := by
  have : qs.store.object l ∈ (Q q).map some := by
    rw [← h.objects q]; exact List.mem_map_of_mem hl
  obtain ⟨p, hp, he⟩ := List.mem_map.mp this
  exact ⟨p, hp, he.symm⟩

/-- The link of a process that is on a process queue. -/
theorem RepBy.link_eq (h : RepBy qs xs Q hand) {q : KQueue} {p : Pid} (hq : q.isProc = true)
    (hp : p ∈ Q q) : ∃ l ∈ xs (.client q), qs.store.object l = some p ∧ qs.link p = some l := by
  obtain ⟨l, hl, ho⟩ := h.exists_link hp
  exact ⟨l, hl, ho, h.held q hq l hl p ho⟩

/-- A process is on at most one process queue. -/
theorem RepBy.proc_unique (h : RepBy qs xs Q hand) {q r : KQueue} {p : Pid}
    (hq : q.isProc = true) (hr : r.isProc = true) (hpq : p ∈ Q q) (hpr : p ∈ Q r) : q = r := by
  obtain ⟨l, hl, _, h1⟩ := h.link_eq hq hpq
  obtain ⟨l', hl', _, h2⟩ := h.link_eq hr hpr
  rw [h1, Option.some.injEq] at h2
  subst h2
  simpa using h.lists.disjoint hl hl'

/-- A process is at most once on a process queue. -/
theorem RepBy.proc_nodup (h : RepBy qs xs Q hand) {q : KQueue} (hq : q.isProc = true) :
    (Q q).Nodup := by
  have hinj : ((xs (.client q)).map qs.store.object).Nodup := by
    refine List.Nodup.map_on ?_ (h.lists.nodup _)
    intro l hl l' hl' he
    obtain ⟨p, _, ho⟩ := h.exists_object hl
    have h1 := h.held q hq l hl p ho
    have h2 := h.held q hq l' hl' p (he ▸ ho)
    exact Option.some.inj (h1.symm.trans h2)
  rw [h.objects q] at hinj
  exact List.Nodup.of_map some hinj

/-- The objects that a walk along the queue meets. -/
theorem Rep.objects_eq (h : Rep qs Q) (q : KQueue) : qs.store.objects (.client q) = Q q := by
  obtain ⟨xs, h⟩ := h
  rw [Store.objects, h.lists.links_eq]
  have := congrArg (List.filterMap id) (h.objects q)
  simpa [List.filterMap_map] using this

theorem Rep.empty_eq (h : Rep qs Q) (q : KQueue) :
    AQueueEmpty (.client q) qs.store = (Q q).isEmpty := by
  obtain ⟨xs, h⟩ := h
  have hlen := congrArg List.length (h.objects q)
  rw [List.length_map, List.length_map] at hlen
  rw [Bool.eq_iff_iff, h.lists.empty_iff, List.isEmpty_iff, ← List.length_eq_zero_iff,
    ← List.length_eq_zero_iff, hlen]

/-- The first link of a queue, and its object. -/
theorem RepBy.first_eq (h : RepBy qs xs Q hand) {q : KQueue} {p : Pid} {ps : List Pid}
    (hq : Q q = p :: ps) : ∃ l ls, xs (.client q) = l :: ls ∧ qs.store.object l = some p ∧
      ls.map qs.store.object = ps.map some ∧ AQueueFirst (.client q) qs.store = some l := by
  have ho := h.objects q
  rw [hq] at ho
  rcases hx : xs (.client q) with _ | ⟨l, ls⟩
  · simp [hx] at ho
  · rw [hx, List.map_cons, List.map_cons, List.cons.injEq] at ho
    exact ⟨l, ls, rfl, ho.1, ho.2, by simp [AQueueFirst, h.lists.first, hx]⟩

/-! ## A link is always free -/

theorem RepBy.free_ne_nil (h : RepBy qs xs Q none) (hw : WaitsOnce Q) : xs .freeLinks ≠ [] := by
  intro hfree
  have hex : ∀ l : LinkId, ∃ q p, l ∈ xs (.client q) ∧ p ∈ Q q ∧ qs.store.object l = some p := by
    intro l
    rcases h.all l with ⟨q, hl⟩ | ⟨p, hp⟩
    · rcases q with _ | q
      · simp [hfree] at hl
      · obtain ⟨p, hp, ho⟩ := h.exists_object hl
        exact ⟨q, p, hl, hp, ho⟩
    · cases hp
  choose q p hl hp ho using hex
  -- a link is determined by its process and by the kind of its queue
  have hinj : Injective fun l => (p l, (q l).isProc) := by
    intro l l' he
    obtain ⟨h1, h2⟩ := Prod.mk.inj he
    rcases hk : (q l).isProc with _ | _
    · have hq : q l = q l' :=
        hw.unique _ _ (p l) hk (h2 ▸ hk) (hp l) (h1 ▸ hp l')
      have hn : ((xs (.client (q l))).map qs.store.object).Nodup := by
        rw [h.objects]
        exact (hw.nodup _ hk).map (Option.some_injective _)
      exact List.inj_on_of_nodup_map hn (hl l) (hq ▸ hl l') (by rw [ho, ho, h1])
    · have e1 := h.held _ hk l (hl l) _ (ho l)
      have e2 := h.held _ (h2 ▸ hk) l' (hl l') _ (ho l')
      rw [h1, e2] at e1
      exact (Option.some.inj e1).symm
  have hcard := Fintype.card_le_of_injective _ hinj
  simp [QUEUE_MAX_LINKS, PROCESS_MAX_PROCS] at hcard

/-! ## Taking a process off a queue, and putting one on -/

/-- The link of a process leaves its queue and is free again. -/
theorem RepBy.remove {s' : Store KQueue Pid} {link' : Pid → Option LinkId} (h : RepBy qs xs Q none)
    {q : KQueue} {ys zs : List LinkId} {l : LinkId} {ps rs : List Pid}
    (hx : xs (.client q) = ys ++ l :: zs)
    (hps : ys.map qs.store.object = ps.map some) (hrs : zs.map qs.store.object = rs.map some)
    (hl : Lists s' (update (update xs (.client q) (ys ++ zs)) .freeLinks (xs .freeLinks ++ [l])))
    (ho : s'.object = qs.store.object)
    (hlink : ∀ r, r.isProc = true → ∀ p ∈ update Q q (ps ++ rs) r, link' p = qs.link p) :
    Rep ⟨s', link'⟩ (update Q q (ps ++ rs)) := by
  have hobj : ∀ r, ((update (update xs (.client q) (ys ++ zs)) .freeLinks (xs .freeLinks ++ [l]))
      (.client r)).map s'.object = (update Q q (ps ++ rs) r).map some := by
    intro r
    by_cases hr : r = q
    · subst hr; simp [ho, hps, hrs]
    · simp [hr, ho, h.objects r]
  have hsub : ∀ r l', l' ∈ (update (update xs (.client q) (ys ++ zs)) .freeLinks
      (xs .freeLinks ++ [l])) (.client r) → l' ∈ xs (.client r) := by
    intro r l' hl'
    by_cases hr : r = q
    · subst hr
      have : l' ∈ ys ++ zs := by simpa using hl'
      rw [hx]; simp only [List.mem_append, List.mem_cons] at this ⊢; tauto
    · simpa [hr] using hl'
  refine ⟨_, hl, hobj, ?_, ?_, by simp⟩
  · intro l'
    left
    by_cases hll : l' = l
    · exact ⟨.freeLinks, by simp [hll]⟩
    · rcases h.all l' with ⟨r, hr⟩ | ⟨_, hp⟩
      · refine ⟨r, ?_⟩
        rcases r with _ | r
        · simp [hr]
        · by_cases hrq : r = q
          · subst hrq
            have : l' ∈ ys ++ zs := by
              rw [hx] at hr; simp only [List.mem_append, List.mem_cons] at hr ⊢; tauto
            simpa using this
          · simpa [hrq] using hr
      · cases hp
  · intro r hr l' hl' p hp
    have hmem : p ∈ update Q q (ps ++ rs) r := by
      have : some p ∈ (update Q q (ps ++ rs) r).map some := by
        rw [← hobj r, ← hp]; exact List.mem_map_of_mem hl'
      simpa using this
    exact (hlink r hr p hmem).trans (h.held r hr l' (hsub r l' hl') p (ho ▸ hp))

/-- A list of objects, split at one of them. -/
theorem RepBy.split (h : RepBy qs xs Q hand) {q : KQueue} {l : LinkId} {p : Pid}
    (hl : l ∈ xs (.client q)) (ho : qs.store.object l = some p) :
    ∃ ys zs ps rs, xs (.client q) = ys ++ l :: zs ∧ Q q = ps ++ p :: rs ∧
      ys.map qs.store.object = ps.map some ∧ zs.map qs.store.object = rs.map some := by
  obtain ⟨ys, zs, hx⟩ := List.append_of_mem hl
  have hobj := h.objects q
  rw [hx, List.map_append, List.map_cons, ho, eq_comm, List.map_eq_append_iff] at hobj
  obtain ⟨ps, rs', hq, h1, h2⟩ := hobj
  obtain ⟨p', rs, rfl, h3, h4⟩ := List.map_eq_cons_iff.mp h2
  obtain rfl := Option.some.inj h3
  exact ⟨ys, zs, ps, rs, hx, hq, h1.symm, h4.symm⟩

theorem erase_middle {ps rs : List Pid} {p : Pid} (hd : (ps ++ p :: rs).Nodup) :
    (ps ++ p :: rs).erase p = ps ++ rs := by
  have hp : p ∉ ps := fun hp => (List.nodup_append.mp hd).2.2 p hp p (by simp) rfl
  simp [List.erase_append_right _ hp]

/-- A process leaves its process queue. -/
theorem Rep.remove (h : Rep qs Q) {q : KQueue} (hq : q.isProc = true) {p : Pid} (hp : p ∈ Q q) :
    ∃ s', AQueueRemove (qs.link p) qs.store = (QUEUE_SUCCESS, none, s') ∧
      Rep ⟨s', update qs.link p none⟩ (update Q q ((Q q).erase p)) := by
  obtain ⟨xs, h⟩ := h
  obtain ⟨l, hl, ho, hlink⟩ := h.link_eq hq hp
  obtain ⟨ys, zs, ps, rs, hx, hQ, h1, h2⟩ := h.split hl ho
  obtain ⟨s', hrun, hlists, hobj, _⟩ := AQueueRemove.spec h.lists hx (by simp)
  have hd := h.proc_nodup hq
  rw [hQ] at hd
  refine ⟨s', by rw [hlink, hrun], ?_⟩
  rw [hQ, erase_middle hd]
  refine h.remove hx h1 h2 hlists hobj ?_
  intro r hr p' hp'
  have hne : p' ≠ p := by
    rintro rfl
    by_cases hrq : r = q
    · subst hrq
      rw [update_self] at hp'
      exact (List.nodup_cons.mp (List.nodup_middle.mp hd)).1 hp'
    · rw [update_of_ne hrq] at hp'
      exact hrq (h.proc_unique hr hq hp' hp)
  rw [update_of_ne hne]

/-- The first process of a waiting queue leaves it. -/
theorem Rep.removeFirst (h : Rep qs Q) {q : KQueue} {p : Pid} {ps : List Pid}
    (hp : Q q = p :: ps) :
    ∃ l s', AQueueFirst (.client q) qs.store = some l ∧ AQueueObject l qs.store = some p ∧
      AQueueRemove (some l) qs.store = (QUEUE_SUCCESS, none, s') ∧
      Rep ⟨s', qs.link⟩ (update Q q ps) := by
  obtain ⟨xs, h⟩ := h
  obtain ⟨l, ls, hx, ho, hls, hfirst⟩ := h.first_eq hp
  obtain ⟨s', hrun, hlists, hobj, _⟩ := AQueueRemove.spec h.lists
    (show xs (.client q) = [] ++ l :: ls from hx) (by simp)
  refine ⟨l, s', hfirst, ho, hrun, ?_⟩
  exact h.remove (show xs (.client q) = [] ++ l :: ls from hx)
    (show ([] : List LinkId).map qs.store.object = ([] : List Pid).map some from rfl) hls hlists
    hobj fun _ _ _ _ => rfl

/-- A free link is taken for a process. -/
theorem Rep.alloc (h : Rep qs Q) (hw : WaitsOnce Q) (p : Pid) :
    ∃ l s', AQueueAllocLink p qs.store = (some l, s') ∧
      ∀ link' : Pid → Option LinkId,
        (∀ r, r.isProc = true → ∀ p' ∈ Q r, link' p' = qs.link p') →
        Holding ⟨s', link'⟩ Q l p := by
  obtain ⟨xs, h⟩ := h
  obtain ⟨l, fs, hf⟩ := List.exists_cons_of_ne_nil (h.free_ne_nil hw)
  obtain ⟨s', hrun, hlists, hoff, hobj, _⟩ := AQueueAllocLink.spec h.lists p hf
  have hsame : ∀ q, ∀ l' ∈ xs (.client q), s'.object l' = qs.store.object l' := by
    intro q l' hl'
    have : l' ≠ l := by
      rintro rfl
      have := h.lists.disjoint hl' (show l' ∈ xs .freeLinks by simp [hf])
      cases this
    simp [hobj, this]
  refine ⟨l, s', hrun, fun link' hlink => ⟨_, hlists, ?_, ?_, ?_, ?_⟩⟩
  · intro q
    rw [update_of_ne (by simp), ← h.objects q]
    exact List.map_congr_left (hsame q)
  · intro l'
    by_cases hll : l' = l
    · exact .inr ⟨p, by rw [hll]⟩
    · rcases h.all l' with ⟨r, hr⟩ | ⟨_, hp⟩
      · refine .inl ⟨r, ?_⟩
        rcases r with _ | r
        · have : l' ∈ fs := by rw [hf] at hr; simpa [hll] using hr
          simpa using this
        · simpa using hr
      · cases hp
  · intro q hq l' hl' p' hp'
    rw [update_of_ne (by simp)] at hl'
    have hp' : qs.store.object l' = some p' := (hsame q l' hl').symm.trans hp'
    obtain ⟨p'', hmem, ho⟩ := h.exists_object hl'
    obtain rfl := Option.some.inj (hp'.symm.trans ho)
    exact (hlink q hq p' hmem).trans (h.held q hq l' hl' p' hp')
  · rintro l' p' he
    obtain ⟨rfl, rfl⟩ := Prod.mk.inj (Option.some.inj he)
    exact ⟨hoff, by simp [hobj]⟩

/-- The link in hand comes onto a queue. -/
theorem RepBy.insert {s' : Store KQueue Pid} {q : KQueue} {ys zs : List LinkId} {l : LinkId}
    {p : Pid} {ps rs : List Pid} (h : RepBy qs xs Q (some (l, p)))
    (hx : xs (.client q) = ys ++ zs)
    (hps : ys.map qs.store.object = ps.map some) (hrs : zs.map qs.store.object = rs.map some)
    (hl : Lists s' (update xs (.client q) (ys ++ l :: zs))) (ho : s'.object = qs.store.object)
    (hlink : q.isProc = true → qs.link p = some l) :
    Rep ⟨s', qs.link⟩ (update Q q (ps ++ p :: rs)) := by
  obtain ⟨_, hlp⟩ := h.taken l p rfl
  refine ⟨_, hl, ?_, ?_, ?_, by simp⟩
  · intro r
    by_cases hr : r = q
    · subst hr; simp [ho, hlp, hps, hrs]
    · simp [hr, ho, h.objects r]
  · intro l'
    left
    rcases h.all l' with ⟨r, hr⟩ | ⟨p', he⟩
    · refine ⟨r, ?_⟩
      by_cases hrq : r = .client q
      · subst hrq
        rw [hx] at hr
        simp only [update_self, List.mem_append, List.mem_cons] at hr ⊢
        tauto
      · simpa [hrq] using hr
    · obtain ⟨rfl, _⟩ := Prod.mk.inj (Option.some.inj he)
      exact ⟨.client q, by simp⟩
  · intro r hr l' hl' p' hp'
    have hp' : qs.store.object l' = some p' := ho ▸ hp'
    by_cases hrq : r = q
    · subst hrq
      simp only [update_self, List.mem_append, List.mem_cons] at hl'
      rcases hl' with hy | rfl | hz
      · exact h.held r hr l' (by simp [hx, hy]) p' hp'
      · rw [hlp, Option.some.injEq] at hp'
        exact hp' ▸ hlink hr
      · exact h.held r hr l' (by simp [hx, hz]) p' hp'
    · exact h.held r hr l' (by simpa [hrq] using hl') p' hp'

theorem Holding.insertLast {l : LinkId} {p : Pid} (h : Holding qs Q l p) (q : KQueue)
    (hlink : q.isProc = true → qs.link p = some l) :
    ∃ s', AQueueInsertLast (.client q) (some l) qs.store = (QUEUE_SUCCESS, s') ∧
      Rep ⟨s', qs.link⟩ (update Q q (Q q ++ [p])) := by
  obtain ⟨xs, h⟩ := h
  obtain ⟨s', hrun, hlists, hobj, _⟩ :=
    AQueueInsertLast.spec h.lists (.client q) (h.taken l p rfl).1
  exact ⟨s', hrun, h.insert (List.append_nil _).symm (h.objects q) rfl hlists hobj hlink⟩

theorem Holding.insertFirst {l : LinkId} {p : Pid} (h : Holding qs Q l p) (q : KQueue)
    (hlink : q.isProc = true → qs.link p = some l) :
    ∃ s', AQueueInsertFirst (.client q) (some l) qs.store = (QUEUE_SUCCESS, s') ∧
      Rep ⟨s', qs.link⟩ (update Q q (p :: Q q)) := by
  obtain ⟨xs, h⟩ := h
  obtain ⟨s', hrun, hlists, hobj, _⟩ :=
    AQueueInsertFirst.spec h.lists (.client q) (h.taken l p rfl).1
  exact ⟨s', hrun, h.insert (List.nil_append _).symm
    (show ([] : List LinkId).map qs.store.object = ([] : List Pid).map some from rfl)
    (h.objects q) hlists hobj hlink⟩

/-- The first process of a queue becomes its last one. -/
theorem Rep.rotate (h : Rep qs Q) {q : KQueue} {p : Pid} {ps : List Pid} (hp : Q q = p :: ps) :
    ∃ s', AQueueMoveAfter (.client q) (AQueueLast (.client q) qs.store)
        (AQueueFirst (.client q) qs.store) qs.store = (QUEUE_SUCCESS, s') ∧
      Rep ⟨s', qs.link⟩ (update Q q (ps ++ [p])) := by
  obtain ⟨xs, h⟩ := h
  obtain ⟨l, ls, hx, ho, hls, _⟩ := h.first_eq hp
  obtain ⟨s', hrun, hlists, hobj, _⟩ := AQueueMoveAfter.rotate h.lists hx
  have hsub : ∀ r l', l' ∈ update xs (.client q) (ls ++ [l]) (.client r) ↔ l' ∈ xs (.client r) := by
    intro r l'
    by_cases hr : r = q
    · subst hr; simp [hx, or_comm]
    · simp [hr]
  refine ⟨s', hrun, _, hlists, ?_, ?_, ?_, by simp⟩
  · intro r
    by_cases hr : r = q
    · subst hr; simp [hobj, ho, hls]
    · simp [hr, hobj, h.objects r]
  · intro l'
    rcases h.all l' with ⟨r, hr⟩ | ⟨_, he⟩
    · refine .inl ⟨r, ?_⟩
      rcases r with _ | r
      · simpa using hr
      · exact (hsub r l').mpr hr
    · cases he
  · intro r hr l' hl' p' hp'
    exact h.held r hr l' ((hsub r l').mp hl') p' (hobj ▸ hp')

/-- The initialization of a queue that is empty changes nothing. -/
theorem Rep.init (h : Rep qs Q) {q : KQueue} (hq : Q q = []) :
    AQueueInit (.client q) qs.store = (QUEUE_SUCCESS, qs.store) := by
  obtain ⟨xs, h⟩ := h
  have hx : xs (.client q) = [] := by
    have := h.objects q
    simpa [hq] using this
  have h1 := h.lists.first (.client q)
  have h2 := h.lists.last (.client q)
  have h3 := h.lists.nitems (.client q)
  rw [hx] at h1 h2 h3
  have e1 : update qs.store.first (.client q) none = qs.store.first := by simpa using h1.symm
  have e2 : update qs.store.last (.client q) none = qs.store.last := by simpa using h2.symm
  have e3 : update qs.store.nitems (.client q) 0 = qs.store.nitems := by simpa using h3.symm
  simp only [AQueueInit, Store.setFirst, Store.setLast, Store.setNitems, e1, e2, e3]

end dlxos
