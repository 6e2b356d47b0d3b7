-- SUMMARY: Bucket names: every pair of slugs has its own, and which of them are short enough.
import NotedThat.Core.Names

/-!
# Bucket names

A bucket is named by a tenant and a knowledge base. A tenant has no hyphen, so the first one behind the
prefix ends it. The longest slugs give a name that is one character too long, which the startup refuses.
-/

/-- A label of the DNS that is long enough for a bucket. -/
structure IsBucketName (name : Text) : Prop where
  long : 3 ≤ (Utf8.encode name).length
  short : (Utf8.encode name).length ≤ bucketNameMax
  chars : ∀ ch ∈ name, isSlugChar ch = true
  begins : name.head? ≠ some '-'
  ends : name.getLast? ≠ some '-'

theorem isSlugChar_ascii {ch : Char} (h : isSlugChar ch = true) : ch.toNat < 0x80 := by
  have below : ∀ hi : Char, hi.toNat < 0x80 → ch ≤ hi → ch.toNat < 0x80 := fun hi hhi hle => Nat.lt_of_le_of_lt hle hhi
  simp only [isSlugChar, Bool.or_eq_true, decide_eq_true_eq] at h
  rcases h with (⟨-, h⟩ | ⟨-, h⟩) | rfl
  · exact below 'z' (by decide) h
  · exact below '9' (by decide) h
  · decide

theorem length_encode_slug {s : Text} (h : ∀ ch ∈ s, isSlugChar ch = true) : (Utf8.encode s).length = s.length := by
  induction s with
  | nil => rfl
  | cons ch s ih =>
    obtain ⟨hch, hs⟩ := List.forall_mem_cons.mp h
    rw [Utf8.encode_cons, Utf8.encodeChar_ascii (isSlugChar_ascii hch), List.singleton_append, List.length_cons,
      ih hs, List.length_cons]

theorem validateSlug_ends {s : Text} {n : Nat} (h : validateSlug s n = .ok ()) : s.getLast? ≠ some '-' := by
  unfold validateSlug at h
  split_ifs at h with _ _ _ hends
  exact hends

theorem validateSlug_length {s : Text} {n : Nat} (h : validateSlug s n = .ok ()) : s.length ≤ n := by
  have hchars := validateSlug_chars h
  unfold validateSlug at h
  split_ifs at h with _ hlong
  rw [length_encode_slug hchars] at hlong
  omega

section Derived

variable {tenant tenant' : TenantSlug} {kb kb' : KbSlug}

/-- The hyphen that ends the tenant is found again. -/
theorem deriveBucketName_inj (h : deriveBucketName tenant kb = deriveBucketName tenant' kb') :
    tenant = tenant' ∧ kb = kb' := by
  unfold deriveBucketName at h
  rw [List.append_assoc, List.append_assoc] at h
  obtain ⟨htenant, hkb⟩ := Text.append_cons_inj tenant.noHyphen tenant'.noHyphen (List.append_cancel_left h)
  obtain ⟨name, _, _⟩ := tenant
  obtain ⟨name', _, _⟩ := tenant'
  cases htenant
  exact ⟨rfl, KbSlug.ext hkb⟩

theorem deriveBucketName_chars : ∀ ch ∈ deriveBucketName tenant kb, isSlugChar ch = true := by
  have hprefix : ∀ ch ∈ bucketNamePrefix, isSlugChar ch = true := List.all_eq_true.mp (by decide)
  intro ch hch
  unfold deriveBucketName at hch
  rcases List.mem_append.mp hch with hch | hch
  · rcases List.mem_append.mp hch with hch | hch
    · exact hprefix ch hch
    · exact validateSlug_chars tenant.valid ch hch
  · rcases List.mem_cons.mp hch with rfl | hch
    · rfl
    · exact validateSlug_chars kb.valid ch hch

theorem length_deriveBucketName :
    (Utf8.encode (deriveBucketName tenant kb)).length = tenant.val.length + kb.val.length + 4 := by
  rw [length_encode_slug deriveBucketName_chars, deriveBucketName, List.length_append, List.length_append,
    List.length_cons, show bucketNamePrefix.length = 3 from rfl]
  omega

theorem deriveBucketName_ends : (deriveBucketName tenant kb).getLast? ≠ some '-' := by
  have hlast : (deriveBucketName tenant kb).getLast? = kb.val.getLast? := by
    obtain ⟨ch, rest, hval⟩ := List.exists_cons_of_ne_nil kb.val_ne_nil
    rw [deriveBucketName, hval, List.getLast?_append_cons, List.getLast?_cons_cons]
  rw [hlast]
  exact validateSlug_ends kb.valid

theorem validateBucketName_eq_ok :
    validateBucketName tenant kb = .ok () ↔ tenant.val.length + kb.val.length ≤ 59 := by
  unfold validateBucketName
  dsimp only
  rw [length_deriveBucketName, show bucketNameMax = 63 from rfl]
  split
  · exact iff_of_false nofun (by omega)
  · exact iff_of_true rfl (by omega)

theorem deriveBucketName_begins : (deriveBucketName tenant kb).head? ≠ some '-' := nofun

/-- Two pairs of slugs have the same bucket only if they are equal. Every bucket is a label of the DNS but for
its length: a bucket has a valid name if and only if the startup accepts it, which it does exactly when the two
slugs have 59 characters at most; only one character is ever missing. -/
theorem deriveBucketName_exact (tenant tenant' : TenantSlug) (kb kb' : KbSlug) :
    (deriveBucketName tenant kb = deriveBucketName tenant' kb' → tenant = tenant' ∧ kb = kb') ∧
      ((∀ ch ∈ deriveBucketName tenant kb, isSlugChar ch = true) ∧
        3 ≤ (Utf8.encode (deriveBucketName tenant kb)).length ∧
        (deriveBucketName tenant kb).head? ≠ some '-' ∧ (deriveBucketName tenant kb).getLast? ≠ some '-') ∧
      (IsBucketName (deriveBucketName tenant kb) ↔ validateBucketName tenant kb = .ok ()) ∧
      (validateBucketName tenant kb = .ok () ↔ tenant.val.length + kb.val.length ≤ 59) ∧
      (Utf8.encode (deriveBucketName tenant kb)).length ≤ bucketNameMax + 1 := by
  have hlong : 3 ≤ (Utf8.encode (deriveBucketName tenant kb)).length := by
    rw [length_deriveBucketName]
    omega
  refine ⟨deriveBucketName_inj,
    ⟨deriveBucketName_chars, hlong, deriveBucketName_begins, deriveBucketName_ends⟩, ?_, validateBucketName_eq_ok, ?_⟩
  · rw [validateBucketName_eq_ok]
    constructor
    · intro h
      have hshort := h.short
      rw [length_deriveBucketName, show bucketNameMax = 63 from rfl] at hshort
      omega
    · intro h
      refine ⟨hlong, ?_, deriveBucketName_chars, deriveBucketName_begins, deriveBucketName_ends⟩
      rw [length_deriveBucketName, show bucketNameMax = 63 from rfl]
      omega
  · have htenant := validateSlug_length tenant.valid
    have hkb := validateSlug_length kb.valid
    rw [length_deriveBucketName, show bucketNameMax = 63 from rfl]
    omega

end Derived

/-- The longest tenant. -/
def TenantSlug.longest : TenantSlug := ⟨List.replicate 20 'a', by decide, by decide⟩

def KbSlug.longest : KbSlug := ⟨List.replicate 40 'b', by decide⟩

/-- The longest slugs name no bucket. -/
theorem deriveBucketName_too_long : ¬ IsBucketName (deriveBucketName .longest .longest) := by
  intro h
  have hshort := h.short
  rw [length_deriveBucketName] at hshort
  exact absurd hshort (by decide)
