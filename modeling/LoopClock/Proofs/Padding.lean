import LoopClock.Proofs.Source.Zeros

/-! Globals that are grown again and again. Only zeros are added, and only behind what is there. The line of
an array tells all of its words, and what is read from it goes on growing as the array itself does. Lengths
are added up with 64 bits here, and come out as they do without a bound. -/
namespace LoopClock

namespace Source

open Grammar Matcher

end Source

namespace Global

variable {g h : Global}

/-- A global that is grown to one length after the other. -/
def grown (g : Global) (ns : List Nat) : Global := ns.foldl (fun g n => (g.growTo n).2) g

theorem Alike.grown (A : Alike g h) (ns : List Nat) : Alike (g.grown ns) (h.grown ns) := by
  induction ns generalizing g h with
  | nil => exact A
  | cons n ns ih => exact ih (A.growTo n)

def Item.len64 : Item → UInt64
  | word _ => 1
  | zeros n => .ofNat n

/-- The number of elements, added up with 64 bits. -/
def len64 (g : Global) : UInt64 := g.data.foldl (fun n i => n + i.len64) 0

def pad64 (n : UInt64) : List Item → List Item
  | [] => [.zeros n.toNat]
  | [.zeros m] => [.zeros (.ofNat m + n : UInt64).toNat]
  | i :: is => i :: pad64 n is

/-- Growing a global with arithmetic of 64 bits, which starts again at zero when a sum is too large. -/
def growTo64 (g : Global) (n : UInt64) : Bool × Global :=
  if n ≤ g.len64 then (false, g) else (true, { g with data := pad64 (n - g.len64) g.data })

theorem toNat_foldl_len64 (items : List Item) (n : UInt64) (h : n.toNat + lenOf items < 2 ^ 64) :
    (items.foldl (fun n i => n + i.len64) n).toNat = n.toNat + lenOf items := by
  induction items generalizing n with
  | nil => rfl
  | cons i is ih =>
    rw [lenOf] at h
    have hitem : i.len64.toNat = i.len := by
      cases i with
      | word w => rfl
      | zeros m =>
        rw [Item.len] at h
        exact (UInt64.toNat_ofNat').trans (Nat.mod_eq_of_lt (by omega))
    have hsum : (n + i.len64).toNat = n.toNat + i.len := by
      rw [UInt64.toNat_add, hitem, Nat.mod_eq_of_lt (by omega)]
    rw [List.foldl_cons, ih _ (by omega), hsum, lenOf, Nat.add_assoc]

theorem toNat_len64 (h : g.len < 2 ^ 64) : g.len64.toNat = g.len := by
  have h₀ : (0 : UInt64).toNat + lenOf g.data < 2 ^ 64 := (Nat.zero_add _).symm ▸ h
  exact (toNat_foldl_len64 g.data 0 h₀).trans (Nat.zero_add _)

theorem pad64_eq (n : UInt64) (items : List Item) (h : lenOf items + n.toNat < 2 ^ 64) :
    pad64 n items = pad n.toNat items := by
  induction items using pad.induct with
  | case1 => rfl
  | case2 m =>
    have hm : m + n.toNat < 2 ^ 64 := by simpa [lenOf, Item.len] using h
    rw [pad64, pad, UInt64.toNat_add, UInt64.toNat_ofNat', Nat.mod_add_mod, Nat.mod_eq_of_lt hm]
  | case3 i is hne ih =>
    rw [lenOf] at h
    rw [pad64, pad, ih (by omega)]
    · exact hne
    · exact hne

/-- Nothing is lost to 64 bits as long as they hold the length. -/
theorem growTo64_eq (h : g.len < 2 ^ 64) (n : UInt64) : g.growTo64 n = g.growTo n.toNat := by
  have hlen := toNat_len64 h
  rw [growTo64, growTo]
  by_cases hn : n ≤ g.len64
  · rw [if_pos hn, if_pos (hlen ▸ UInt64.le_iff_toNat_le.1 hn)]
  · have hlt : g.len < n.toNat := by
      rw [UInt64.le_iff_toNat_le, hlen] at hn
      omega
    have hsub : (n - g.len64).toNat = n.toNat - g.len := by
      rw [UInt64.toNat_sub_of_le _ _ (UInt64.le_iff_toNat_le.2 (by omega)), hlen]
    have hfits : g.len + (n - g.len64).toNat < 2 ^ 64 := by
      have := n.toNat_lt
      omega
    rw [if_neg hn, if_neg (by omega), pad64_eq _ _ hfits, hsub]

/-- A global that has a length: 64 bits hold the number of its elements. -/
structure Sized extends Global where
  fits : toGlobal.len < 2 ^ 64

namespace Sized

theorem fits_growTo64 (g : Sized) (n : UInt64) : (g.toGlobal.growTo64 n).2.len < 2 ^ 64 := by
  rw [growTo64_eq g.fits, len_growTo]
  exact Nat.max_lt.2 ⟨g.fits, n.toNat_lt⟩

def growTo (g : Sized) (n : UInt64) : Bool × Sized :=
  ((g.toGlobal.growTo64 n).1, ⟨(g.toGlobal.growTo64 n).2, g.fits_growTo64 n⟩)

def grown (g : Sized) (ns : List UInt64) : Sized := ns.foldl (fun g n => (g.growTo n).2) g

end Sized
end Global
end LoopClock
