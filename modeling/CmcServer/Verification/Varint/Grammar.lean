import CmcServer.Verification.Varint.Correctness

/-! # The grammar of varints

Which bytes the reader takes, whatever is in the buffer. -/

namespace CmcServer

open Bytes

/-- The first `n` bytes of a buffer are a varint: bit 7 is set in all of them but the last. -/
def IsVarint (buffer : ℕ → UInt8) (n : ℕ) : Prop :=
  0 < n ∧ (∀ i, i + 1 < n → buffer i &&& 0x80 ≠ 0) ∧ buffer (n - 1) &&& 0x80 = 0

/-- The low seven bits of the first `n` bytes, the first byte the least significant. -/
def groupSum (buffer : ℕ → UInt8) (n : ℕ) : ℕ :=
  ∑ i ∈ Finset.range n, (buffer i &&& 0x7F).toNat * 2 ^ (7 * i)

theorem at_load (buffer : ℕ → UInt8) (n : ℕ) : At buffer 0 (load buffer 0 n) := by
  intro i hi
  simp [load]

theorem load_succ (buffer : ℕ → UInt8) (n : ℕ) :
    load buffer 0 (n + 1) = load buffer 0 n ++ [buffer n] := by
  simp [load, List.range_succ]

theorem load_eq_append {buffer : ℕ → UInt8} {size : ℕ} {id rest : List UInt8}
    (h : load buffer 0 size = id ++ rest) : id = load buffer 0 id.length := by
  have hbytes := at_load buffer size
  rw [h, at_append] at hbytes
  exact (load_eq_of_at hbytes.1).symm

theorem isNumeral_load (buffer : ℕ → UInt8) (n : ℕ) :
    Base128.IsNumeral (load buffer 0 n) ↔ IsVarint buffer n := by
  have hcontinue : ∀ b : UInt8, b &&& 0x80 ≠ 0 ↔ 128 ≤ b.toNat := by
    intro b
    rw [ne_eq, and_continue_eq_zero_iff, Nat.not_lt]
  cases n with
  | zero =>
      constructor
      · intro h
        exact absurd h Base128.not_isNumeral_nil
      · intro h
        exact absurd h.1 (lt_irrefl 0)
  | succ n =>
      rw [load_succ]
      constructor
      · rintro ⟨front, last, h, hfront, hlast⟩
        rcases List.append_inj' h rfl with ⟨rfl, hsingle⟩
        cases hsingle
        refine ⟨Nat.succ_pos n, ?_, (and_continue_eq_zero_iff _).mpr hlast⟩
        intro i hi
        apply (hcontinue _).mpr
        apply hfront
        exact List.mem_map.mpr ⟨i, List.mem_range.mpr (by omega), by rw [Nat.zero_add]⟩
      · rintro ⟨-, hfront, hlast⟩
        refine ⟨load buffer 0 n, buffer n, rfl, ?_, (and_continue_eq_zero_iff _).mp hlast⟩
        intro b hb
        rcases List.mem_map.mp hb with ⟨i, hi, rfl⟩
        rw [Nat.zero_add]
        exact (hcontinue _).mp (hfront i (by have := List.mem_range.mp hi; omega))

theorem value_load (buffer : ℕ → UInt8) (n : ℕ) :
    Base128.value (load buffer 0 n) = groupSum buffer n := by
  rw [Base128.value_eq_sum, groupSum, length_load]
  refine Finset.sum_congr rfl fun i hi => ?_
  have hbyte : (load buffer 0 n).getD i 0 = buffer i := by
    have hlt := Finset.mem_range.mp hi
    simp [load, hlt]
  rw [hbyte, and_group_toNat]

/-- The reader fails without a varint at the start of the buffer, and otherwise takes it. -/
theorem protocolReadVarint_cases (buffer : ℕ → UInt8) (size : ℕ) :
    ((∀ n, n ≤ min size 5 → ¬ IsVarint buffer n) ∧
        (protocolReadVarint buffer size 0).ret = -1) ∨
      ∃ n, n ≤ min size 5 ∧ IsVarint buffer n ∧ protocolReadVarint buffer size 0 =
        { ret := n, value := toInt32 (groupSum buffer n), inspected := n } := by
  have hread := readLoop_split (n := 4) (v := 0) (at_load buffer size) rfl (Nat.two_pow_pos 0)
  cases hsplit : Base128.split 5 (load buffer 0 size) with
  | none =>
      rw [hsplit, length_load] at hread
      refine Or.inl ⟨?_, hread⟩
      intro n hn hvarint
      have hdata : load buffer 0 size =
          load buffer 0 n ++ (load buffer 0 size).drop n := by
        have htake : (load buffer 0 size).take n = load buffer 0 n := by
          rw [load_eq_append (List.take_append_drop n (load buffer 0 size)).symm,
            List.length_take, length_load, Nat.min_eq_left (hn.trans (Nat.min_le_left _ _))]
        rw [← htake, List.take_append_drop]
      have hsome : Base128.split 5 (load buffer 0 size) =
          some (load buffer 0 n, (load buffer 0 size).drop n) := by
        refine Base128.split_eq_some_iff.mpr ⟨(isNumeral_load buffer n).mpr hvarint, ?_, hdata⟩
        rw [length_load]
        exact hn.trans (Nat.min_le_right _ _)
      rw [hsplit] at hsome
      cases hsome
  | some parts =>
      rcases parts with ⟨id, rest⟩
      rcases Base128.split_eq_some_iff.mp hsplit with ⟨hnumeral, hlength, hdata⟩
      rw [hsplit, length_load] at hread
      have hid := load_eq_append hdata
      have hsize : id.length ≤ size := by
        have hlengths := congrArg List.length hdata
        rw [length_load, List.length_append] at hlengths
        omega
      rw [hid, isNumeral_load] at hnumeral
      refine Or.inr ⟨id.length, le_min hsize hlength, hnumeral, ?_⟩
      rw [← value_load, ← hid]
      simpa [protocolReadVarint] using hread.2

/-- No buffer starts with two varints. -/
theorem IsVarint.unique {buffer : ℕ → UInt8} {m n : ℕ} (hm : IsVarint buffer m)
    (hn : IsVarint buffer n) : m = n := by
  have hle : ∀ {m n}, IsVarint buffer m → IsVarint buffer n → m ≤ n := by
    intro m n hm hn
    by_contra hlt
    have hpos := hn.1
    exact hm.2.1 (n - 1) (by omega) hn.2.2
  exact le_antisymm (hle hm hn) (hle hn hm)

/-- The reader looks at no more bytes than it is given, nor at more groups than fit below the
limit. -/
theorem readLoop_window (orInto : ℤ → UInt8 → ℕ → ℤ) {limit shift k : ℕ} (buffer : ℕ → UInt8)
    (size i : ℕ) (value : ℤ) (hlimit : limit ≤ shift + 7 * k) (hshift : shift < limit) :
    (readLoop orInto limit buffer size i shift value).inspected ≤ i + min size k ∧
      ∀ buffer' : ℕ → UInt8, (∀ j, i ≤ j → j < i + min size k → buffer' j = buffer j) →
        readLoop orInto limit buffer' size i shift value =
          readLoop orInto limit buffer size i shift value := by
  induction size generalizing i shift k value with
  | zero => exact ⟨le_rfl, fun _ _ => rfl⟩
  | succ size ih =>
      obtain ⟨k, rfl⟩ : ∃ l, k = l + 1 := ⟨k - 1, by omega⟩
      have hone : i + 1 ≤ i + min (size + 1) (k + 1) := by omega
      constructor
      · simp only [readLoop]
        split
        · exact hone
        · split
          · exact hone
          · have hrest := (ih (i + 1) (orInto value (buffer i) shift)
              (show limit ≤ shift + 7 + 7 * k by omega) (by omega)).1
            omega
      · intro buffer' hsame
        have hbyte : buffer' i = buffer i := hsame i le_rfl (by omega)
        simp only [readLoop, hbyte]
        split
        · rfl
        · split
          · rfl
          · refine (ih (i + 1) (orInto value (buffer i) shift)
              (show limit ≤ shift + 7 + 7 * k by omega) (by omega)).2 buffer' fun j hj hlt => ?_
            exact hsame j (by omega) (by omega)

/-- The reader returns the length of the varint that the buffer starts with and leaves the sum of
its groups, wrapped to an `int32_t`. Without a varint of at most five bytes it fails. It looks at
no other byte than the first five of the buffer. -/
theorem varint_grammar (buffer : ℕ → UInt8) (size : ℕ) :
    let read := protocolReadVarint buffer size 0
    (∀ n : ℕ, 0 < n → (read.ret = n ↔ n ≤ min size 5 ∧ IsVarint buffer n)) ∧
      (∀ n : ℕ, 0 < n → read.ret = n → read.value = toInt32 (groupSum buffer n)) ∧
      (read.ret = -1 ∨ 0 < read.ret) ∧
      read.inspected ≤ min size 5 ∧
      ∀ buffer' : ℕ → UInt8, (∀ i < min size 5, buffer' i = buffer i) →
        protocolReadVarint buffer' size 0 = read := by
  have hwindow := readLoop_window orGroup buffer size 0 0 (show 32 ≤ 0 + 7 * 5 by decide)
    (by decide)
  rw [Nat.zero_add] at hwindow
  have hlocal : ∀ buffer' : ℕ → UInt8, (∀ i < min size 5, buffer' i = buffer i) →
      protocolReadVarint buffer' size 0 = protocolReadVarint buffer size 0 :=
    fun buffer' hsame => hwindow.2 buffer' fun i _ hi => hsame i hi
  refine ⟨?_, ?_, ?_, hwindow.1, hlocal⟩
  · intro n hpos
    rcases protocolReadVarint_cases buffer size with ⟨hnone, hret⟩ | ⟨m, hle, hm, hread⟩
    · rw [hret]
      constructor
      · intro hn
        omega
      · intro hn
        exact absurd hn.2 (hnone n hn.1)
    · rw [hread]
      constructor
      · intro hn
        have hmn : m = n := Int.ofNat_inj.mp hn
        rw [← hmn]
        exact ⟨hle, hm⟩
      · intro hn
        exact congrArg _ (hm.unique hn.2)
  · intro n hpos hn
    rcases protocolReadVarint_cases buffer size with ⟨-, hret⟩ | ⟨m, -, -, hread⟩
    · omega
    · rw [hread] at hn ⊢
      have hmn : m = n := Int.ofNat_inj.mp hn
      rw [hmn]
  · rcases protocolReadVarint_cases buffer size with ⟨-, hret⟩ | ⟨m, -, hm, hread⟩
    · exact Or.inl hret
    · right
      rw [hread]
      exact Int.natCast_pos.mpr hm.1

end CmcServer
