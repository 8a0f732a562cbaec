-- The memory of a process at its own addresses. The copies of the kernel read and
-- write it byte by byte.
import DlxOs.CopyRoundTrip
import DlxOs.FileSys

namespace dlxos

open Function

/-! ## The memory of a process -/

/-- What a process has at its own addresses. There is nothing where no page is
mapped. -/
abbrev UserMemory := Word → Option Byte

/-- The memory of a process, behind the translation of its addresses. -/
def userMemory (pcb : PCB) (ram : Ram) : UserMemory := fun addr =>
  match MemoryTranslateUserToSystem pcb addr with
  | none => none
  | some w => if w = 0 then none else some (ram w)

/-- The bytes that a copy of `n` bytes brings: it stops where nothing is mapped. -/
def userBytes (user : UserMemory) : Word → Nat → List Byte
  | _, 0 => []
  | src, n + 1 => match user src with
    | none => []
    | some v => v :: userBytes user (src + 1) n

/-- The memory after a copy of the bytes to the process. -/
def putBytes : UserMemory → Word → List Byte → UserMemory
  | user, _, [] => user
  | user, dst, v :: vs => match user dst with
    | none => user
    | some _ => putBytes (update user dst (some v)) (dst + 1) vs

variable {mem : UserMemory} {p dst : Word} {bytes : List Byte} {n i : Nat}

/-! ## Bytes in a memory -/

/-- The bytes stand in the memory from the address on. -/
def Reads (mem : UserMemory) (p : Word) (bytes : List Byte) : Prop :=
  ∀ i v, bytes[i]? = some v → mem (place p i) = some v

theorem place_zero (p : Word) : place p 0 = p := by
  unfold place
  simp

theorem place_succ (p : Word) (i : Nat) : place (p + 1) i = place p (i + 1) := by
  have h := place_add p 1 i
  rw [Nat.add_comm 1 i] at h
  exact h

theorem Reads.head {v : Byte} (h : Reads mem p (v :: bytes)) : mem p = some v := by
  have := h 0 v rfl
  rwa [place_zero] at this

theorem Reads.tail {v : Byte} (h : Reads mem p (v :: bytes)) : Reads mem (p + 1) bytes := by
  intro i w hw
  rw [place_succ]
  exact h (i + 1) w hw

theorem Reads.append {more : List Byte} (h : Reads mem p (bytes ++ more)) :
    Reads mem p bytes ∧ Reads mem (place p bytes.length) more := by
  constructor
  · intro i v hv
    refine h i v ?_
    rw [List.getElem?_append_left (List.getElem?_eq_some_iff.mp hv).1]
    exact hv
  · intro i v hv
    rw [place_add]
    refine h _ v ?_
    rw [List.getElem?_append_right (by omega), Nat.add_sub_cancel_left]
    exact hv

/-- A copy brings the bytes that stand there. -/
theorem userBytes_getElem? (n : Nat) : ∀ {p : Word} {bytes : List Byte} {i : Nat},
    Reads mem p bytes → i < n → i < bytes.length → (userBytes mem p n)[i]? = bytes[i]? := by
  induction n with
  | zero => exact fun _ hi => absurd hi (Nat.not_lt_zero _)
  | succ n ih =>
    intro p bytes i h hi hlen
    cases bytes with
    | nil => exact absurd hlen (Nat.not_lt_zero _)
    | cons v bytes =>
      simp only [userBytes, h.head]
      cases i with
      | zero => rfl
      | succ i =>
        simp only [List.getElem?_cons_succ]
        exact ih h.tail (Nat.lt_of_succ_lt_succ hi) (Nat.lt_of_succ_lt_succ hlen)

theorem userBytes_length_le (n : Nat) : ∀ {p : Word}, (userBytes mem p n).length ≤ n := by
  induction n with
  | zero => exact Nat.le_refl 0
  | succ n ih =>
    intro p
    rw [userBytes]
    split
    · exact Nat.zero_le _
    · rw [List.length_cons]
      exact Nat.succ_le_succ ih

/-- The bytes stand there after they were put there. -/
theorem putBytes_frame {addr : Word} (bytes : List Byte) : ∀ {mem : UserMemory} {dst : Word},
    (∀ i < bytes.length, addr ≠ place dst i) → putBytes mem dst bytes addr = mem addr := by
  induction bytes with
  | nil => exact fun _ => rfl
  | cons v bytes ih =>
    intro mem dst hne
    have h0 : addr ≠ dst := by
      have := hne 0 (Nat.succ_pos _)
      rwa [place_zero] at this
    rw [putBytes]
    rcases mem dst with _ | w
    · rfl
    · refine (ih fun i hi => ?_).trans (update_of_ne h0 _ _)
      rw [place_succ]
      exact hne (i + 1) (Nat.succ_lt_succ hi)

theorem putBytes_reads (bytes : List Byte) : ∀ {mem : UserMemory} {dst : Word},
    bytes.length ≤ 2 ^ 32 → (∀ i < bytes.length, (mem (place dst i)).isSome) →
    Reads (putBytes mem dst bytes) dst bytes := by
  induction bytes with
  | nil => exact fun _ _ i v hv => nomatch hv
  | cons v bytes ih =>
    intro mem dst hlen hmap
    rw [List.length_cons] at hlen
    obtain ⟨w, hw⟩ := Option.isSome_iff_exists.mp (hmap 0 (Nat.succ_pos _))
    rw [place_zero] at hw
    have hput : putBytes mem dst (v :: bytes) =
        putBytes (update mem dst (some v)) (dst + 1) bytes := by
      rw [putBytes, hw]
    have hnext : ∀ i < bytes.length, place (dst + 1) i ≠ dst := by
      intro i hi he
      rw [place_succ] at he
      have h0 : place dst (i + 1) = place dst 0 := by rw [he, place_zero]
      have := place_inj (by omega) (by omega) h0
      omega
    intro i u hu
    rw [hput]
    cases i with
    | zero =>
      rw [place_zero, putBytes_frame bytes fun i hi => (hnext i hi).symm, update_self]
      exact hu
    | succ i =>
      rw [← place_succ]
      refine ih (by omega) (fun j hj => ?_) i u hu
      rw [update_of_ne (hnext j hj), place_succ]
      exact hmap (j + 1) (Nat.succ_lt_succ hj)

/-! ## The copies of the kernel -/

variable {b : PCB} {page : Fin PAGETABLE_SIZE → Nat} {u s addr : Word} {ram : Ram}

theorem userMemory_mapped (h : b.Maps) (ha : addr.toNat < b.top) :
    userMemory b ram addr = some (ram (b.physical addr)) := by
  obtain ⟨hw, hne, -⟩ := physical_mapped h ha
  unfold userMemory
  rw [hw]
  exact if_neg hne

/-- A copy to the kernel brings the bytes of the process, and leaves them. -/
theorem MemoryCopyUserToSystem.reads (h : b.DistinctPages page) (hu : b.Range u n)
    (hs : b.Outside s n) (ram : Ram) :
    ∃ y, MemoryCopyUserToSystem b u s n ram = .ok y ∧
      (∀ i < n, userMemory b ram (place u i) = some (y.ram (place s i))) ∧
      ∀ addr : Word, addr.toNat < b.top → userMemory b y.ram addr = userMemory b ram addr := by
  obtain ⟨y, hy, -, hmoved⟩ := @moveLoop_moves _ (-1) _ h (n + 1) _ _ (Nat.lt_succ_self n)
    (@ready_of_range _ _ ram _ _ hu hs)
  refine ⟨y, hy, fun i hi => ?_, fun addr ha => ?_⟩
  · have hend := (@ready_of_range _ _ ram _ _ hu hs).mapped (by omega)
    simp only at hend
    have hmaps := h.maps (show u.toNat < b.top by omega)
    have htop := hmaps.top_le
    rw [userMemory_mapped hmaps (by rw [place_toNat (by omega)]; omega)]
    exact congrArg some (hmoved.moved i hi).symm
  · have hmaps := h.maps ha
    rw [userMemory_mapped hmaps ha, userMemory_mapped hmaps ha]
    refine congrArg some (hmoved.frame _ fun i hi he => hs i hi ?_)
    have hplace : b.physical addr = place s i := he
    rw [← hplace]
    exact physical_inPages hmaps ha

end dlxos
