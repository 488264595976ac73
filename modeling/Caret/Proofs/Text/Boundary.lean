import Caret.Proofs.Signature.Code

/-!
# Boundaries between characters

The valid offsets of a text by recursion on it, the boundary to which an offset
inside a character is moved, and the bytes at which a character surely begins.
-/

namespace Caret.Text

theorem isBoundary_nil_iff {n : Nat} : IsBoundary [] n ↔ n = 0 := by
  constructor
  · rintro ⟨before, after, happend, rfl⟩
    obtain ⟨rfl, -⟩ := List.append_eq_nil_iff.1 happend.symm
    rfl
  · rintro rfl
    exact ⟨[], [], rfl, rfl⟩

theorem isBoundary_cons_iff {c : Char} {cs : List Char} {n : Nat} :
    IsBoundary (c :: cs) n ↔ n = 0 ∨ c.utf8Size ≤ n ∧ IsBoundary cs (n - c.utf8Size) := by
  constructor
  · rintro ⟨before, after, happend, rfl⟩
    cases before with
    | nil => exact Or.inl rfl
    | cons d before =>
        obtain ⟨rfl, rfl⟩ := List.cons.inj happend
        refine Or.inr ⟨Nat.le_add_right _ _, before, after, rfl, ?_⟩
        rw [byteLength_cons, Nat.add_sub_cancel_left]
  · rintro (rfl | ⟨hle, before, after, rfl, hlength⟩)
    · exact ⟨[], c :: cs, rfl, rfl⟩
    · refine ⟨c :: before, after, rfl, ?_⟩
      rw [byteLength_cons, hlength]
      omega

theorem IsBoundary.le {cs : List Char} {n : Nat} (h : IsBoundary cs n) : n ≤ byteLength cs := by
  obtain ⟨before, after, rfl, rfl⟩ := h
  rw [byteLength_append]
  exact Nat.le_add_right _ _

theorem isBoundary_byteLength (cs : List Char) : IsBoundary cs (byteLength cs) :=
  ⟨cs, [], (List.append_nil cs).symm, rfl⟩

theorem IsBoundary.of_append
    {before after : List Char} {n : Nat} (h : IsBoundary (before ++ after) n)
    (hn : n ≤ byteLength before) :
    IsBoundary before n := by
  induction before generalizing n with
  | nil => exact isBoundary_nil_iff.2 (Nat.le_zero.1 hn)
  | cons c before ih =>
      rw [List.cons_append, isBoundary_cons_iff] at h
      rw [byteLength_cons] at hn
      rcases h with rfl | ⟨hle, h⟩
      · exact isBoundary_cons_iff.2 (Or.inl rfl)
      · exact isBoundary_cons_iff.2 (Or.inr ⟨hle, ih h (by omega)⟩)

theorem utf8Size_of_ascii {c : Char} (hc : c.toNat < 128) : c.utf8Size = 1 := by
  apply Char.utf8Size_eq_one_iff.2
  apply UInt32.le_iff_toNat_le.2
  exact Nat.le_of_lt_succ hc

theorem byteLength_of_ascii {cs : List Char} (hcs : ∀ c ∈ cs, c.toNat < 128) :
    byteLength cs = cs.length := by
  induction cs with
  | nil => rfl
  | cons c cs ih =>
      rw [byteLength_cons, List.length_cons, utf8Size_of_ascii (hcs c List.mem_cons_self),
        ih fun d hd => hcs d (List.mem_cons_of_mem c hd)]
      exact Nat.add_comm _ _

theorem isBoundary_of_ascii
    {cs : List Char} {i : Nat} {x : Char} (h : (Signature.bytes cs)[i]? = some x)
    (hx : x.toNat < 128) :
    IsBoundary cs i := by
  induction cs generalizing i with
  | nil => simp at h
  | cons c cs ih =>
      have hsize : (Signature.bytes [c]).length = c.utf8Size := by simp
      rw [Signature.bytes_cons] at h
      rw [isBoundary_cons_iff]
      by_cases hi : i < c.utf8Size
      · rw [List.getElem?_append_left (by omega)] at h
        have hascii : c.toNat < 128 := by
          by_contra hc
          have := Signature.ascii_le_of_mem_bytes_singleton (by omega) (List.mem_of_getElem? h)
          omega
        rw [utf8Size_of_ascii hascii] at hi
        exact Or.inl (by omega)
      · rw [List.getElem?_append_right (by omega), hsize] at h
        exact Or.inr ⟨by omega, ih h⟩

/-- Around a byte that reads as an ASCII character a text is cut as its bytes are. -/
theorem exists_cut_of_ascii
    {cs front rest : List Char} {x : Char} (h : Signature.bytes cs = front ++ x :: rest)
    (hx : x.toNat < 128) :
    ∃ u v, cs = u ++ x :: v ∧ Signature.bytes u = front ∧ Signature.bytes v = rest := by
  have hget : (Signature.bytes cs)[front.length]? = some x := by simp [h]
  obtain ⟨u, v, rfl, hlength⟩ := isBoundary_of_ascii hget hx
  rw [Signature.bytes_append] at h
  obtain ⟨hfront, hrest⟩ := List.append_inj h (by rw [Signature.length_bytes, hlength])
  cases v with
  | nil => simp at hrest
  | cons c v =>
      rw [Signature.bytes_cons] at hrest
      by_cases hc : c.toNat < 128
      · rw [Signature.bytes_singleton_of_ascii hc, List.singleton_append] at hrest
        obtain ⟨rfl, htail⟩ := List.cons.inj hrest
        exact ⟨u, v, rfl, hfront, htail⟩
      · have hsize : (Signature.bytes [c]).length = c.utf8Size := by simp
        have hmem : x ∈ Signature.bytes [c] := by
          cases hbytes : Signature.bytes [c] with
          | nil =>
              have := Char.utf8Size_pos c
              rw [hbytes, List.length_nil] at hsize
              omega
          | cons y tail =>
              rw [hbytes] at hrest
              exact (List.cons.inj hrest).1 ▸ List.mem_cons_self
        have := Signature.ascii_le_of_mem_bytes_singleton (by omega) hmem
        omega

/-- What `dropBytes` leaves out ends at the first boundary from the offset on. -/
theorem exists_dropped (cs : List Char) (n : Nat) :
    ∃ dropped, cs = dropped ++ dropBytes cs n ∧ min n (byteLength cs) ≤ byteLength dropped ∧
      ∀ i, n ≤ i → i < byteLength dropped → ¬IsBoundary cs i := by
  fun_induction dropBytes cs n with
  | case1 cs => exact ⟨[], rfl, by simp, by simp⟩
  | case2 n => exact ⟨[], rfl, by simp, by simp⟩
  | case3 c cs n ih =>
      obtain ⟨dropped, happend, hle, hnone⟩ := ih
      refine ⟨c :: dropped, by rw [List.cons_append, ← happend], ?_, ?_⟩
      · rw [byteLength_cons, byteLength_cons]
        omega
      · intro i hi hlt hboundary
        rw [byteLength_cons] at hlt
        rcases isBoundary_cons_iff.1 hboundary with rfl | ⟨hsize, hboundary⟩
        · omega
        · exact hnone (i - c.utf8Size) (by omega) (by omega) hboundary

theorem dropBytes_eq_nil {cs : List Char} {n : Nat} (hn : byteLength cs ≤ n) :
    dropBytes cs n = [] := by
  fun_induction dropBytes cs n with
  | case1 cs =>
      cases cs with
      | nil => rfl
      | cons c cs =>
          have := Char.utf8Size_pos c
          rw [byteLength_cons] at hn
          omega
  | case2 n => rfl
  | case3 c cs n ih =>
      rw [byteLength_cons] at hn
      exact ih (by omega)

theorem dropBytes_congr
    {cs : List Char} {m n : Nat} (h : min m (byteLength cs) = min n (byteLength cs)) :
    dropBytes cs m = dropBytes cs n := by
  by_cases hm : byteLength cs ≤ m
  · rw [dropBytes_eq_nil hm, dropBytes_eq_nil (by omega)]
  · rw [show m = n by omega]

end Caret.Text
