import AssignmentLowering.Symbol.Identity
import Mathlib.Data.List.Basic
import Mathlib.Logic.ExistsUnique
import Mathlib.Logic.Function.Basic

/-!
# What identities keep apart

The components of an identity are mixed by steps that can each be undone: the separator is
odd, so multiplying by it modulo 2^64 loses nothing, and neither does adding a parameter or
combining bits exclusively. So a change of one component always changes the identity, however
many parameters are folded in behind it. Nothing is assumed of the digest of names for that.

## Main definitions

* `SymbolId.memberBy`, `SymbolId.indexerBy` — identities made with any digest of names.

## Main statements

* `SymbolId.addParams_injective` — folding in parameters can be undone.
* `SymbolId.addParams_ne` — parameters that differ in one position are told apart.
* `SymbolId.separates_components` — owners and single parameters are told apart.
-/

namespace AssignmentLowering.SymbolId

/-- The identity of a member, with the names digested by `digest`. -/
def memberBy (digest : String → UInt64) (owner : SymbolId) (name : String) : SymbolId :=
  ⟨memberMark ^^^ owner.val * separator ^^^ digest name⟩

/-- The identity of an indexer, with the names digested by `digest`. -/
def indexerBy (digest : String → UInt64) (owner : SymbolId) (params : List SymbolId) :
    SymbolId :=
  ⟨addParams 0 (memberBy digest owner "Item").val params⟩

theorem memberBy_ofString : memberBy Digest.ofString = ofMember := rfl

theorem indexerBy_ofString : indexerBy Digest.ofString = ofIndexer := rfl

/-- Multiplying by this undoes multiplying by the separator. -/
def separatorInverse : UInt64 := 0xd3f20f0a40208825

theorem separator_mul_inverse : separator * separatorInverse = 1 := by decide

theorem mul_separator_injective : Function.Injective fun h : UInt64 => h * separator := by
  have hleft : Function.LeftInverse (· * separatorInverse) fun h : UInt64 => h * separator := by
    intro h
    change h * separator * separatorInverse = h
    rw [UInt64.mul_assoc, separator_mul_inverse, UInt64.mul_one]
  exact hleft.injective

/-! ## Owners -/

theorem memberBy_injective (digest : String → UInt64) (name : String) :
    Function.Injective fun owner => memberBy digest owner name := by
  intro a b h
  have hval : memberMark ^^^ a.val * separator ^^^ digest name =
      memberMark ^^^ b.val * separator ^^^ digest name := congrArg val h
  rw [UInt64.xor_left_inj, UInt64.xor_right_inj] at hval
  have howner : a.val = b.val := mul_separator_injective hval
  cases a
  cases b
  exact congrArg mk howner

/-! ## Parameters -/

/-- What has been folded in before is not lost under the parameters that follow. -/
theorem addParams_injective (ps : List SymbolId) :
    ∀ i, Function.Injective fun h => addParams i h ps := by
  induction ps with
  | nil => exact fun _ => Function.injective_id
  | cons p ps ih =>
    intro i h h' heq
    have hstep := ih (i + 1) heq
    exact mul_separator_injective ((UInt64.add_left_inj _).1 hstep)

/-- Different parameters in one position lead to different values. -/
theorem add_param_ne (i : Nat) (h : UInt64) {p q : SymbolId} (hne : p ≠ q) :
    h * separator + (positionMark i ^^^ p.val) ≠ h * separator + (positionMark i ^^^ q.val) := by
  intro heq
  rw [UInt64.add_right_inj, UInt64.xor_right_inj] at heq
  cases p
  cases q
  exact hne (congrArg mk heq)

/-- Lists that differ in one position only differ either in the first or in one of the
others. -/
theorem existsUnique_ne_cons {α : Type} {a b : α} {as bs : List α}
    (h : ∃! i : Nat, (a :: as)[i]? ≠ (b :: bs)[i]?) :
    (a ≠ b ∧ as = bs) ∨ (a = b ∧ ∃! i : Nat, as[i]? ≠ bs[i]?) := by
  obtain ⟨i, hi, honly⟩ := h
  cases i with
  | zero =>
    refine .inl ⟨fun hab => hi (congrArg some hab), List.ext_getElem? fun j => ?_⟩
    by_contra hj
    cases honly (j + 1) hj
  | succ i =>
    refine .inr ⟨?_, i, hi, fun j hj => Nat.succ.inj (honly (j + 1) hj)⟩
    by_contra hab
    cases honly 0 fun heq => hab (Option.some.inj heq)

/-- Parameters that differ in one position are told apart. -/
theorem addParams_ne {ps : List SymbolId} :
    ∀ {qs : List SymbolId} (i : Nat) (h : UInt64), ps.length = qs.length →
      (∃! j : Nat, ps[j]? ≠ qs[j]?) → addParams i h ps ≠ addParams i h qs := by
  induction ps with
  | nil =>
    intro qs i h hlen hdiffer
    obtain rfl := List.length_eq_zero_iff.1 hlen.symm
    obtain ⟨j, hj, -⟩ := hdiffer
    exact absurd rfl hj
  | cons p ps ih =>
    intro qs i h hlen hdiffer
    cases qs with
    | nil => cases hlen
    | cons q qs =>
      obtain ⟨hne, rfl⟩ | ⟨rfl, hrest⟩ := existsUnique_ne_cons hdiffer
      · exact fun heq => add_param_ne i h hne (addParams_injective ps (i + 1) heq)
      · exact ih (i + 1) _ (Nat.succ.inj hlen) hrest

/-- **A change of one component changes the identity.** Whatever the digest of names, and
with that of names in use in particular: two indexers of one owner with equally many
parameters, however many, that differ in exactly one position have different identities; so
have indexers with the same parameters, and members of the same name, of different owners. -/
theorem separates_components (digest : String → UInt64) :
    (memberBy Digest.ofString = ofMember ∧ indexerBy Digest.ofString = ofIndexer) ∧
    (∀ (owner : SymbolId) (ps qs : List SymbolId), ps.length = qs.length →
      (∃! i : Nat, ps[i]? ≠ qs[i]?) → indexerBy digest owner ps ≠ indexerBy digest owner qs) ∧
    (∀ (ps : List SymbolId) (a b : SymbolId), a ≠ b →
      indexerBy digest a ps ≠ indexerBy digest b ps) ∧
    ∀ (name : String) (a b : SymbolId), a ≠ b →
      memberBy digest a name ≠ memberBy digest b name := by
  refine ⟨⟨memberBy_ofString, indexerBy_ofString⟩, fun owner ps qs hlen hdiffer heq => ?_,
    fun ps a b hne heq => ?_, fun name a b hne heq => ?_⟩
  · exact addParams_ne 0 _ hlen hdiffer (congrArg val heq)
  · have hmember := addParams_injective ps 0 (congrArg val heq)
    exact hne (memberBy_injective digest "Item" (congrArg mk hmember))
  · exact hne (memberBy_injective digest name heq)

/-- Ten parameters that differ in the ninth only, where the markers are counted up, and two
different owners. -/
theorem separates_components_ninth :
    let ps : List SymbolId := List.replicate 10 ⟨7⟩
    let qs := ps.set 8 ⟨8⟩
    ps.length = qs.length ∧ (∃! i : Nat, ps[i]? ≠ qs[i]?) ∧ empty ≠ ⟨7⟩ ∧
      ofIndexer empty ps ≠ ofIndexer empty qs ∧ ofIndexer empty ps ≠ ofIndexer ⟨7⟩ ps ∧
      ofMember empty "Count" ≠ ofMember ⟨7⟩ "Count" := by
  intro ps qs
  have hdiffer : ∃! i : Nat, ps[i]? ≠ qs[i]? := by
    refine ⟨8, by decide, fun i hi => ?_⟩
    by_contra hne
    exact hi (List.getElem?_set_ne (Ne.symm hne)).symm
  obtain ⟨-, hparams, howner, hmember⟩ := separates_components Digest.ofString
  exact ⟨rfl, hdiffer, by decide, hparams empty ps qs rfl hdiffer,
    howner ps empty ⟨7⟩ (by decide), hmember "Count" empty ⟨7⟩ (by decide)⟩

end AssignmentLowering.SymbolId
