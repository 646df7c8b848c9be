import Mathlib.Data.List.Basic
import Mathlib.Data.Nat.ModEq
import Mathlib.Data.List.Range
import Mathlib.Data.Fin.Basic
import Mathlib.Logic.Function.Basic

/-!
# Ring buffers with counters that wrap

An array and two counters of 32 bits that only go up: the items between them are in the array at the
counters modulo its size.  Where the size divides `2 ^ 32`, nothing is special about the moment at
which a counter wraps.
-/

namespace RingBuffer

variable {α : Type} {size : Nat} [NeZero size]

/-- The place of a counter in the array. -/
def slot (size : Nat) [NeZero size] (c : UInt32) : Fin size := Fin.ofNat size c.toNat

/-- The `n` items from the counter `r` on. -/
def items (data : Fin size → α) (r : UInt32) (n : Nat) : List α :=
  (List.range n).map fun i => data (slot size (r + UInt32.ofNat i))

/-- How many items lie between two counters. -/
def count (r w : UInt32) : Nat := (w - r).toNat

theorem length_items (data : Fin size → α) (r : UInt32) (n : Nat) :
    (items data r n).length = n := by
  rw [items, List.length_map, List.length_range]

theorem count_toNat (r w : UInt32) : count r w = (2 ^ 32 - r.toNat + w.toNat) % 2 ^ 32 := by
  rw [count, UInt32.toNat_sub]

theorem count_eq_zero {r w : UInt32} : count r w = 0 ↔ r = w := by
  have hr := r.toNat_lt
  have hw := w.toNat_lt
  rw [count_toNat, ← UInt32.toNat_inj]
  omega

theorem count_eq {r w : UInt32} {k : Nat} (hk : k < 2 ^ 32) :
    count r w = k ↔ w = r + UInt32.ofNat k := by
  have hr := r.toNat_lt
  have hw := w.toNat_lt
  rw [count_toNat, ← UInt32.toNat_inj, UInt32.toNat_add, UInt32.toNat_ofNat']
  omega

/-- The place of the item `i` after the counter `r`. -/
theorem slot_add (hsize : size ∣ 2 ^ 32) (r : UInt32) (i : Nat) :
    (slot size (r + UInt32.ofNat i)).val = (r.toNat + i) % size := by
  show (r + UInt32.ofNat i).toNat % size = _
  rw [UInt32.toNat_add, UInt32.toNat_ofNat', Nat.mod_mod_of_dvd _ hsize, Nat.add_mod,
    Nat.mod_mod_of_dvd _ hsize, ← Nat.add_mod]

/-- The upper counter stands at the place after the last item. -/
theorem slot_count (hsize : size ∣ 2 ^ 32) (r w : UInt32) :
    slot size w = slot size (r + UInt32.ofNat (count r w)) := by
  apply Fin.ext
  have hr := r.toNat_lt
  have hw := w.toNat_lt
  obtain ⟨k, hk⟩ := hsize
  rw [slot_add ⟨k, hk⟩, count_toNat]
  show w.toNat % size = _
  have hsum : ∃ m, r.toNat + (2 ^ 32 - r.toNat + w.toNat) % 2 ^ 32 = w.toNat + size * m := by
    by_cases hle : r.toNat ≤ w.toNat
    · exact ⟨0, by omega⟩
    · exact ⟨k, by omega⟩
  obtain ⟨m, hm⟩ := hsum
  rw [hm, Nat.add_mul_mod_self_left]

/-- Items that are in the array at the same time have different places. -/
theorem slot_ne (hsize : size ∣ 2 ^ 32) (r : UInt32) {i j : Nat} (hij : i < j) (hj : j < size) :
    slot size (r + UInt32.ofNat i) ≠ slot size (r + UInt32.ofNat j) := by
  intro h
  have hval := congrArg Fin.val h
  rw [slot_add hsize, slot_add hsize] at hval
  have hdiv : size ∣ (r.toNat + j) - (r.toNat + i) := (Nat.modEq_iff_dvd' (by omega)).mp hval
  have hle := Nat.le_of_dvd (by omega) hdiv
  omega

theorem items_succ (data : Fin size → α) (r : UInt32) (n : Nat) :
    items data r (n + 1) = items data r n ++ [data (slot size (r + UInt32.ofNat n))] := by
  rw [items, List.range_succ, List.map_append]
  rfl

/-- Writing behind the items does not change them. -/
theorem items_update (hsize : size ∣ 2 ^ 32) (data : Fin size → α) (r : UInt32) (a : α)
    {n k : Nat} (hn : n ≤ k) (hk : k < size) :
    items (Function.update data (slot size (r + UInt32.ofNat k)) a) r n = items data r n := by
  apply List.map_congr_left
  intro i hi
  rw [List.mem_range] at hi
  exact Function.update_of_ne (slot_ne hsize r (Nat.lt_of_lt_of_le hi hn) hk) a data

/-- An item is put at the end. -/
theorem items_push (hsize : size ∣ 2 ^ 32) (data : Fin size → α) (r w : UInt32) (a : α)
    (hroom : count r w < size) :
    items (Function.update data (slot size w) a) r (count r w + 1) =
      items data r (count r w) ++ [a] := by
  rw [items_succ, slot_count hsize r w, items_update hsize data r a (Nat.le_refl _) hroom,
    Function.update_self]

theorem count_push {r w : UInt32} (hroom : count r w + 1 < 2 ^ 32) :
    count r (w + 1) = count r w + 1 := by
  have hr := r.toNat_lt
  have hw := w.toNat_lt
  rw [count_toNat] at hroom ⊢
  rw [count_toNat, UInt32.toNat_add]
  simp only [UInt32.toNat_one]
  omega

/-- An item is taken from the front. -/
theorem count_pop {r w : UInt32} (hne : r ≠ w) : count r w = count (r + 1) w + 1 := by
  have hr := r.toNat_lt
  have hw := w.toNat_lt
  have hdiff : r.toNat ≠ w.toNat := fun h => hne (UInt32.toNat_inj.mp h)
  rw [count_toNat, count_toNat, UInt32.toNat_add]
  simp only [UInt32.toNat_one]
  omega

theorem items_pop (data : Fin size → α) (r : UInt32) (n : Nat) :
    items data r (n + 1) = data (slot size r) :: items data (r + 1) n := by
  rw [items, List.range_succ_eq_map, List.map_cons, List.map_map]
  congr 1
  · show data (slot size (r + 0)) = _
    rw [UInt32.add_zero]
  · apply List.map_congr_left
    intro i _
    show data (slot size (r + UInt32.ofNat (i + 1))) = data (slot size (r + 1 + UInt32.ofNat i))
    rw [UInt32.ofNat_add, UInt32.add_assoc, UInt32.add_comm 1]
    rfl

end RingBuffer
