import Mathlib.Data.List.Perm.Subperm
import AccessWidening.Proofs.RuleStore.View

/-!
Two stores are equal exactly when they are equal as maps: the comparison goes through the hash maps,
and neither their inner order nor the way in which the rules arrived shows.
-/

namespace AccessWidening

/-- Hash maps are compared by size, and then entry by entry. -/
theorem hashMap_beq_eq {κ ν : Type} [BEq κ] [Hashable κ] [BEq ν] (a b : Std.HashMap κ ν) :
    (a == b) = (a.size == b.size && a.all fun key value => b[key]? == some value) := by
  change Std.HashMap.beq a b = _
  unfold Std.HashMap.beq Std.DHashMap.Const.beq Std.DHashMap.Internal.Raw₀.Const.beq
  split
  · next hsize =>
    have hfalse : (a.size == b.size) = false := beq_eq_false_iff_ne.mpr hsize
    rw [hfalse]
    rfl
  · next hsize =>
    have htrue : (a.size == b.size) = true := beq_iff_eq.mpr (Decidable.not_not.mp hsize)
    rw [htrue]
    rfl

namespace ClassRules

variable {a b : ClassRules} {name : String}

theorem getElem?_fields (h : a.BelongsTo name) (e : Element) :
    a.fields[e]? = if e.kind = .field then a.level? e else none := by
  cases hheld : a.fields[e]? with
  | none => cases e <;> simp [Element.kind, level?, hheld]
  | some level =>
      have hmem : e ∈ a.fields := Std.HashMap.mem_iff_isSome_getElem?.mpr (by rw [hheld]; rfl)
      obtain ⟨hkind, howner⟩ := h.fields e hmem
      rw [if_pos hkind]
      cases e with
      | classItself n => cases hkind
      | field owner n descriptor => rw [level?, if_pos (howner.trans h.owner_eq.symm), hheld]
      | method owner n descriptor => cases hkind

theorem getElem?_methods (h : a.BelongsTo name) (e : Element) :
    a.methods[e]? = if e.kind = .method then a.level? e else none := by
  cases hheld : a.methods[e]? with
  | none => cases e <;> simp [Element.kind, level?, hheld]
  | some level =>
      have hmem : e ∈ a.methods := Std.HashMap.mem_iff_isSome_getElem?.mpr (by rw [hheld]; rfl)
      obtain ⟨hkind, howner⟩ := h.methods e hmem
      rw [if_pos hkind]
      cases e with
      | classItself n => cases hkind
      | field owner n descriptor => cases hkind
      | method owner n descriptor => rw [level?, if_pos (howner.trans h.owner_eq.symm), hheld]

theorem access_eq (h : a.BelongsTo name) : a.access = a.level? (.classItself name) := by
  have howner : (Element.classItself name).owner = a.owner := h.owner_eq.symm
  rw [level?, if_pos howner]

theorem beq_iff (ha : a.BelongsTo name) (hb : b.BelongsTo name) :
    (a == b) = true ↔ ∀ e, a.level? e = b.level? e := by
  have hparts : (a == b) = true ↔ a.access = b.access ∧ a.methods.Equiv b.methods ∧
      a.fields.Equiv b.fields := by
    change (a.owner == b.owner && a.access == b.access && a.methods == b.methods &&
      a.fields == b.fields) = true ↔ _
    rw [ha.owner_eq, hb.owner_eq]
    simp [Std.HashMap.beq_iff_equiv, and_assoc]
  rw [hparts]
  constructor
  · rintro ⟨haccess, hmethods, hfields⟩ e
    unfold level?
    rw [ha.owner_eq, hb.owner_eq]
    cases e with
    | classItself n => simp only [haccess]
    | field owner n descriptor => simp only [hfields.getElem?_eq]
    | method owner n descriptor => simp only [hmethods.getElem?_eq]
  · intro hlevels
    refine ⟨?_, ?_, ?_⟩
    · rw [access_eq ha, access_eq hb, hlevels]
    · apply Std.HashMap.Equiv.of_forall_getElem?_eq
      intro e
      rw [getElem?_methods ha, getElem?_methods hb, hlevels]
    · apply Std.HashMap.Equiv.of_forall_getElem?_eq
      intro e
      rw [getElem?_fields ha, getElem?_fields hb, hlevels]

end ClassRules

namespace RuleStore

variable {a b : RuleStore}

theorem beq_eq_true_iff : (a == b) = true ↔ a.classes.size = b.classes.size ∧
    ∀ {name : String} {bucket : ClassRules}, a.classes[name]? = some bucket →
      ∃ other, b.classes[name]? = some other ∧ (other == bucket) = true := by
  change (a.classes == b.classes) = true ↔ _
  rw [hashMap_beq_eq, Bool.and_eq_true, beq_iff_eq,
    Std.HashMap.all_eq_true_iff_forall_mem_getElem]
  refine and_congr_right fun _ => ?_
  constructor
  · intro hall name bucket hbucket
    obtain ⟨hmem, rfl⟩ := Std.HashMap.getElem?_eq_some_iff.mp hbucket
    have hsame := hall name hmem
    cases hother : b.classes[name]? with
    | none =>
        rw [hother] at hsame
        cases hsame
    | some other =>
        rw [hother] at hsame
        exact ⟨other, rfl, hsame⟩
  · intro hsome name hmem
    obtain ⟨other, hother, hsame⟩ := hsome (Std.HashMap.getElem?_eq_some_getElem hmem)
    rw [hother]
    exact hsame

/-- If every class of a store is a class of another, and both have as many classes, then they have
the same. -/
theorem mem_classes_of_size_eq (hsize : a.classes.size = b.classes.size)
    (hsub : ∀ name ∈ a.classes, name ∈ b.classes) {name : String} (hname : name ∈ b.classes) :
    name ∈ a.classes := by
  have hsubset : a.classes.keys ⊆ b.classes.keys := fun n hn =>
    Std.HashMap.mem_keys.mpr (hsub n (Std.HashMap.mem_keys.mp hn))
  have hlength : b.classes.keys.length = a.classes.keys.length := by
    rw [Std.HashMap.length_keys, Std.HashMap.length_keys, hsize]
  -- distinct keys that lie among as many keys are all of them
  have hperm := (Std.HashMap.nodup_keys.subperm hsubset).perm_of_length_le (Nat.le_of_eq hlength)
  exact Std.HashMap.mem_keys.mp (hperm.mem_iff.mpr (Std.HashMap.mem_keys.mpr hname))

theorem level?_eq_of_beq (ha : a.Kept) (hb : b.Kept) (hsame : (a == b) = true) (e : Element) :
    a.level? e = b.level? e := by
  obtain ⟨hsize, hbuckets⟩ := beq_eq_true_iff.mp hsame
  cases hbucket : a.classes[e.owner]? with
  | some bucket =>
      obtain ⟨other, hother, hequal⟩ := hbuckets hbucket
      have hlevels := (ClassRules.beq_iff (hb.belongs hother) (ha.belongs hbucket)).mp hequal
      rw [level?_of_bucket hbucket rfl, level?_of_bucket hother rfl, hlevels]
  | none =>
      have hsub : ∀ name ∈ a.classes, name ∈ b.classes := by
        intro name hmem
        obtain ⟨other, hother, -⟩ := hbuckets (Std.HashMap.getElem?_eq_some_getElem hmem)
        exact Std.HashMap.mem_iff_isSome_getElem?.mpr (by rw [hother]; rfl)
      have habsent : e.owner ∉ a.classes := by
        rw [Std.HashMap.mem_iff_isSome_getElem?, hbucket]
        exact Bool.false_ne_true
      have habsent' : e.owner ∉ b.classes :=
        fun hmem => habsent (mem_classes_of_size_eq hsize hsub hmem)
      rw [level?, level?, hbucket, Std.HashMap.getElem?_eq_none habsent']

/-- Stores are equal exactly when they are equal as rule sets. -/
theorem beq_iff (ha : a.Kept) (hb : b.Kept) : (a == b) = true ↔ a.toRuleSet = b.toRuleSet := by
  constructor
  · intro hsame
    apply RuleSet.ext_level?
    intro e
    rw [level?_toRuleSet ha, level?_toRuleSet hb, level?_eq_of_beq ha hb hsame]
  · intro hsame
    have hlevels (e : Element) : a.level? e = b.level? e := by
      rw [← level?_toRuleSet ha, hsame, level?_toRuleSet hb]
    have hnames : a.classNames = b.classNames := by
      rw [classNames_toRuleSet ha, hsame, classNames_toRuleSet hb]
    rw [beq_eq_true_iff]
    constructor
    · change a.classCount = b.classCount
      rw [classCount_eq_length, hnames, classCount_eq_length]
    · intro name bucket hbucket
      have hmem : name ∈ b.classes := by
        rw [mem_classes_iff, ← hnames, ← mem_classes_iff]
        exact Std.HashMap.mem_iff_isSome_getElem?.mpr (by rw [hbucket]; rfl)
      have hother := Std.HashMap.getElem?_eq_some_getElem hmem
      refine ⟨_, hother, (ClassRules.beq_iff (hb.belongs hother) (ha.belongs hbucket)).mpr ?_⟩
      intro e
      by_cases howner : e.owner = name
      · rw [← level?_of_bucket hother howner, ← level?_of_bucket hbucket howner, hlevels]
      · rw [ClassRules.level?_eq_none (hb.belongs hother) howner,
          ClassRules.level?_eq_none (ha.belongs hbucket) howner]

end RuleStore

end AccessWidening
