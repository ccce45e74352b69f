import CmcServer.Lib.Conservation
import CmcServer.Model.BufferPool

/-! # Buffers in one place

The buffers that were mapped for a pool are in the pool or with an owner outside. -/

namespace CmcServer

open Conservation

/-- Every buffer that was mapped for the pool `kind` is once in the pool or once with an owner. -/
def Kept (kind : PoolKind) (pools : BufferPools) (owners : List BufId) : Prop :=
  Conserved (fun b => pools.origin b = kind) pools.mapped (pools.free kind ++ owners)

section

variable {kind kind' : PoolKind} {pools : BufferPools} {owners owners' : List BufId} {b : BufId}
  {size : ℕ}

theorem kept_initial (kind : PoolKind) : Kept kind .initial [] := conserved_nil

theorem Kept.perm (h : Kept kind pools owners) (hperm : owners.Perm owners') :
    Kept kind pools owners' :=
  Conserved.perm h (hperm.append_left _)

theorem Kept.lt (h : Kept kind pools owners) (hb : b ∈ owners) : b < pools.mapped :=
  Conserved.lt h b (List.mem_append_right _ hb)

theorem origin_get_mapped (pools : BufferPools) (kind : PoolKind) (size : ℕ) {b : BufId}
    (hb : b < pools.mapped) : (pools.get kind size).2.origin b = pools.origin b := by
  rw [BufferPools.get]
  split
  · exact Function.update_of_ne (Nat.ne_of_lt hb) _ _
  · rfl

theorem Kept.get (h : Kept kind pools owners) :
    Kept kind (pools.get kind size).2 ((pools.get kind size).1 :: owners) := by
  rw [Kept, BufferPools.get]
  cases hfree : pools.free kind with
  | nil =>
      have hmake := Conserved.make (q := fun b =>
        Function.update pools.origin pools.mapped kind b = kind) h fun a ha => by
          rw [Function.update_of_ne (Nat.ne_of_lt ha)]
      simpa only [hfree, List.nil_append] using hmake
  | cons b rest =>
      simp only [Function.update_self]
      refine Conserved.perm h ?_
      rw [hfree]
      exact List.perm_middle.symm

/-- A buffer of another pool goes to an owner. -/
theorem Kept.get_other (h : Kept kind pools owners) (hkind : kind' ≠ kind) :
    Kept kind (pools.get kind' size).2 owners := by
  rw [Kept, BufferPools.get]
  cases hfree : pools.free kind' with
  | nil =>
      refine Conserved.make_other h ?_ ?_
      · intro a ha
        dsimp only
        rw [Function.update_of_ne (Nat.ne_of_lt ha)]
      · dsimp only
        rw [Function.update_self]
        exact hkind
  | cons b rest =>
      simp only [Function.update_of_ne (Ne.symm hkind)]
      exact h

theorem Kept.giveBack (h : Kept kind pools (b :: owners)) :
    Kept kind (pools.giveBack kind b) owners := by
  rw [Kept, BufferPools.giveBack]
  simp only [Function.update_self]
  exact Conserved.perm h List.perm_middle

/-- A buffer that was mapped for another pool is given to this one. -/
theorem Kept.giveBack_foreign (h : Kept kind pools owners) (hlt : b < pools.mapped)
    (hb : pools.origin b ≠ kind) : Kept kind (pools.giveBack kind b) owners := by
  rw [Kept, BufferPools.giveBack]
  simp only [Function.update_self]
  exact Conserved.cons_other h hlt hb

theorem Kept.giveBack_other (h : Kept kind pools owners) (hkind : kind' ≠ kind) :
    Kept kind (pools.giveBack kind' b) owners := by
  rw [Kept, BufferPools.giveBack]
  simp only [Function.update_of_ne (Ne.symm hkind)]
  exact h

/-- ... and only such buffers are in the pool or with an owner. -/
structure Owned (kind : PoolKind) (pools : BufferPools) (owners : List BufId) : Prop where
  kept : Kept kind pools owners
  origin : ∀ b ∈ pools.free kind ++ owners, pools.origin b = kind

theorem owned_initial (kind : PoolKind) : Owned kind .initial [] :=
  ⟨kept_initial kind, fun _ h => absurd h List.not_mem_nil⟩

theorem Owned.memory (h : Owned kind pools owners) (memory : BufId → ℕ → UInt8) :
    Owned kind { pools with memory } owners := ⟨h.kept, h.origin⟩

theorem Owned.perm (h : Owned kind pools owners) (hperm : owners.Perm owners') :
    Owned kind pools owners' :=
  ⟨h.kept.perm hperm, fun b hb => h.origin b ((hperm.append_left _).mem_iff.mpr hb)⟩

/-- No buffer is in two places. -/
theorem Owned.nodup (h : Owned kind pools owners) : (pools.free kind ++ owners).Nodup :=
  Conserved.nodup h.kept h.origin

theorem Owned.get (h : Owned kind pools owners) :
    Owned kind (pools.get kind size).2 ((pools.get kind size).1 :: owners) := by
  refine ⟨h.kept.get, ?_⟩
  intro b hb
  rw [BufferPools.get] at hb ⊢
  cases hfree : pools.free kind with
  | nil =>
      rw [hfree] at hb
      dsimp only at hb ⊢
      rw [hfree, List.nil_append] at hb
      rcases List.mem_cons.mp hb with rfl | hb
      · exact Function.update_self ..
      · have hlt := h.kept.lt hb
        rw [Function.update_of_ne (Nat.ne_of_lt hlt)]
        exact h.origin b (List.mem_append_right _ hb)
  | cons b' rest =>
      rw [hfree] at hb
      simp only [Function.update_self] at hb ⊢
      refine h.origin b ?_
      rw [hfree]
      exact List.perm_middle.mem_iff.mp hb

theorem Owned.get_other (h : Owned kind pools owners) (hkind : kind' ≠ kind) :
    Owned kind (pools.get kind' size).2 owners := by
  refine ⟨h.kept.get_other hkind, ?_⟩
  intro b hb
  have hfree : (pools.get kind' size).2.free kind = pools.free kind := by
    rw [BufferPools.get]
    split
    · rfl
    · exact Function.update_of_ne (Ne.symm hkind) _ _
  rw [hfree] at hb
  rw [origin_get_mapped pools kind' size (Conserved.lt h.kept b hb)]
  exact h.origin b hb

theorem Owned.giveBack (h : Owned kind pools (b :: owners)) :
    Owned kind (pools.giveBack kind b) owners := by
  refine ⟨h.kept.giveBack, ?_⟩
  intro b' hb'
  rw [BufferPools.giveBack] at hb'
  simp only [Function.update_self] at hb'
  exact h.origin b' (List.perm_middle.mem_iff.mpr hb')

theorem Owned.giveBack_other (h : Owned kind pools owners) (hkind : kind' ≠ kind) :
    Owned kind (pools.giveBack kind' b) owners := by
  refine ⟨h.kept.giveBack_other hkind, ?_⟩
  intro b' hb'
  rw [BufferPools.giveBack] at hb'
  simp only [Function.update_of_ne (Ne.symm hkind)] at hb'
  exact h.origin b' hb'

end

/-! ## Packet buffers -/

/-- No buffer for packets is in two places: the two pools that such buffers go to, and the owners
outside. -/
def Apart (pools : BufferPools) (owners : List BufId) : Prop :=
  Exclusive pools.mapped (pools.free .protocolRecv ++ pools.free .protocolSend ++ owners)

section

variable {pools : BufferPools} {owners owners' : List BufId} {b : BufId} {kind : PoolKind}
  {size : ℕ}

theorem apart_initial : Apart .initial [] := exclusive_nil

theorem Apart.perm (h : Apart pools owners) (hperm : owners.Perm owners') :
    Apart pools owners' :=
  Exclusive.perm h (hperm.append_left _)

theorem Apart.sublist (h : Apart pools owners) (hsub : owners'.Sublist owners) :
    Apart pools owners' :=
  Exclusive.sublist h (hsub.append_left _)

theorem Apart.memory (h : Apart pools owners) (memory : BufId → ℕ → UInt8) :
    Apart { pools with memory } owners := h

theorem Apart.nodup (h : Apart pools owners) : owners.Nodup :=
  (List.nodup_append.mp (Exclusive.nodup h)).2.1

theorem Apart.get (h : Apart pools owners) (hkind : kind ≠ .tcpRecv) :
    Apart (pools.get kind size).2 ((pools.get kind size).1 :: owners) := by
  rw [Apart] at h ⊢
  rw [BufferPools.get]
  cases hfree : pools.free kind with
  | nil =>
      refine (Exclusive.make h).perm ?_
      exact List.perm_middle.symm
  | cons b rest =>
      dsimp only
      cases kind with
      | protocolRecv =>
          rw [hfree] at h
          rw [Function.update_self, Function.update_of_ne (by decide)]
          exact h.perm List.perm_middle.symm
      | protocolSend =>
          rw [hfree] at h
          rw [Function.update_self, Function.update_of_ne (by decide)]
          refine h.perm ?_
          rw [List.append_assoc, List.append_assoc]
          exact List.perm_middle.symm.append_left _
      | tcpRecv => exact absurd rfl hkind

theorem Apart.giveBack (h : Apart pools (b :: owners)) (hkind : kind ≠ .tcpRecv) :
    Apart (pools.giveBack kind b) owners := by
  rw [Apart] at h ⊢
  rw [BufferPools.giveBack]
  dsimp only
  cases kind with
  | protocolRecv =>
      rw [Function.update_self, Function.update_of_ne (by decide)]
      exact h.perm List.perm_middle
  | protocolSend =>
      rw [Function.update_self, Function.update_of_ne (by decide)]
      refine h.perm ?_
      rw [List.append_assoc, List.append_assoc]
      exact List.perm_middle.append_left _
  | tcpRecv => exact absurd rfl hkind

/-- Tcp recv buffers are no packet buffers. -/
theorem Apart.get_tcp (h : Apart pools owners) : Apart (pools.get .tcpRecv size).2 owners := by
  rw [Apart] at h ⊢
  rw [BufferPools.get]
  split
  · exact h.make_lost
  · dsimp only
    rw [Function.update_of_ne (by decide), Function.update_of_ne (by decide)]
    exact h

theorem Apart.giveBack_tcp (h : Apart pools owners) :
    Apart (pools.giveBack .tcpRecv b) owners := by
  rw [Apart] at h ⊢
  rw [BufferPools.giveBack]
  dsimp only
  rw [Function.update_of_ne (by decide), Function.update_of_ne (by decide)]
  exact h

theorem memory_get (pools : BufferPools) (kind : PoolKind) (size : ℕ) :
    (pools.get kind size).2.memory = pools.memory := by
  rw [BufferPools.get]
  split <;> rfl

end

end CmcServer
