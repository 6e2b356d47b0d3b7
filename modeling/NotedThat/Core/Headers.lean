-- SUMMARY: HTTP header maps: header values, which of them are text, and the conditional headers of a request.
import NotedThat.Core.Conditional

/-!
# Headers

A header value is a sequence of bytes. Readers of headers want text and treat a value that is none as
absent.
-/

/-- The values of headers under their lower-case names. -/
abbrev HeaderMap := List (String × Bytes)

namespace HeaderMap

/-- `HeaderValue::to_str`: only tabs and visible ASCII are text. -/
def toStr (value : Bytes) : Option Text :=
  if value.all fun b => (32 ≤ b ∧ b < 127) ∨ b = 9 then
    some (value.map fun b => Char.ofNat b.toNat)
  else none

/-- The characters of a value, with one for each byte. -/
def latin1 (value : Bytes) : Text := value.map fun b => Char.ofNat b.toNat

theorem toStr_eq_some {value : Bytes} {text : Text} (h : toStr value = some text) : text = latin1 value := by
  unfold toStr at h
  split at h
  · cases h
    rfl
  · cases h

def getAll (headers : HeaderMap) (name : String) : List Bytes :=
  (headers.filter (·.1 = name)).map Prod.snd

/-- The first value of a header. -/
def get (headers : HeaderMap) (name : String) : Option Bytes := (headers.getAll name).head?

/-- The text of the first value, when it is one. -/
def getStr (headers : HeaderMap) (name : String) : Option Text := (headers.get name).bind toStr

/-- A header that may be given once; `none` when it is repeated or not text. -/
def single (headers : HeaderMap) (name : String) : Option (Option Text) :=
  match headers.getAll name with
  | [] => some none
  | [value] => (toStr value).map some
  | _ => none

/-! ## Values that are sent -/

/-- The bytes a header value may hold. -/
def isValidByte (b : UInt8) : Bool := (32 ≤ b ∧ b ≠ 127) ∨ b = 9

/-- Whether bytes can be sent as a header value. -/
def isValidValue (value : Bytes) : Bool := value.all isValidByte

/-- The characters `to_str` accepts. -/
def IsVisible (c : Char) : Prop := (32 ≤ c.toNat ∧ c.toNat < 127) ∨ c = '\t'

/-- A visible character is sent as one byte, which stands for it. -/
theorem IsVisible.encode {c : Char} (h : IsVisible c) :
    String.utf8EncodeChar c = [UInt8.ofNat c.toNat] ∧
      ((32 ≤ UInt8.ofNat c.toNat ∧ UInt8.ofNat c.toNat < 127) ∨ UInt8.ofNat c.toNat = 9) ∧
      Char.ofNat (UInt8.ofNat c.toNat).toNat = c := by
  rcases h with ⟨hlow, hhigh⟩ | rfl
  · have hbyte : (UInt8.ofNat c.toNat).toNat = c.toNat := by
      rw [UInt8.toNat_ofNat']
      omega
    refine ⟨Utf8.encodeChar_ascii (by omega), .inl ⟨?_, ?_⟩, ?_⟩
    · rw [UInt8.le_iff_toNat_le, hbyte]
      exact hlow
    · rw [UInt8.lt_iff_toNat_lt, hbyte]
      exact hhigh
    · rw [hbyte, Char.ofNat_toNat]
  · exact ⟨Utf8.encodeChar_ascii (by decide), .inr (by decide), by decide⟩

/-- Visible text is read back as it was sent. -/
theorem toStr_encode {t : Text} (h : ∀ c ∈ t, IsVisible c) : toStr (Utf8.encode t) = some t := by
  induction t with
  | nil => rfl
  | cons c t ih =>
    obtain ⟨hc, ht⟩ := List.forall_mem_cons.mp h
    obtain ⟨hencode, hbyte, hback⟩ := hc.encode
    have hrest := ih ht
    simp only [toStr, Option.ite_none_right_eq_some, Option.some.injEq] at hrest
    simp only [toStr, Utf8.encode_cons, hencode, List.singleton_append, List.all_cons, hbyte,
      decide_true, Bool.true_and, hrest.1, if_true, List.map_cons, hback, hrest.2]

/-- What is read from a header is visible text. -/
theorem visible_of_toStr {value : Bytes} {t : Text} (h : toStr value = some t) : ∀ c ∈ t, IsVisible c := by
  unfold toStr at h
  split at h
  · next hall =>
    cases h
    intro c hc
    obtain ⟨b, hb, rfl⟩ := List.mem_map.mp hc
    have hbyte : (32 ≤ b ∧ b < 127) ∨ b = 9 := by simpa using List.all_eq_true.mp hall b hb
    rcases hbyte with ⟨hlow, hhigh⟩ | rfl
    · have hlow : 32 ≤ b.toNat := hlow
      have hhigh : b.toNat < 127 := hhigh
      refine .inl ?_
      rw [Utf8.toNat_ofNat_toNat]
      exact ⟨hlow, hhigh⟩
    · exact .inr rfl
  · cases h

/-- Text that was read from a header can be sent as one again. -/
theorem toStr_encode_toStr {value : Bytes} {t : Text} (h : toStr value = some t) :
    toStr (Utf8.encode t) = some t := toStr_encode (visible_of_toStr h)

/-- What is read from a header stands for its bytes. -/
theorem encode_of_toStr {value : Bytes} {t : Text} (h : toStr value = some t) :
    Utf8.encode t = value := by
  unfold toStr at h
  split at h
  · next hall =>
    cases h
    induction value with
    | nil => rfl
    | cons b value ih =>
      obtain ⟨hb, hvalue⟩ := Bool.and_eq_true_iff.mp hall
      have hascii : b.toNat < 0x80 := by
        rcases of_decide_eq_true hb with ⟨-, hhigh⟩ | rfl
        · have hhigh : b.toNat < 127 := hhigh
          omega
        · decide
      rw [List.map_cons, Utf8.encode_cons, ih hvalue,
        Utf8.encodeChar_ascii (by rwa [Utf8.toNat_ofNat_toNat]), Utf8.toNat_ofNat_toNat, UInt8.ofNat_toNat]
      rfl
  · cases h

/-- A text that can be read from a header is read as it was sent. -/
theorem toStr_encode_eq {s t : Text} (h : toStr (Utf8.encode s) = some t) : t = s :=
  Utf8.encode_injective (encode_of_toStr h)

theorem isValidValue_encode {t : Text} (h : ∀ c ∈ t, IsVisible c) :
    isValidValue (Utf8.encode t) = true := by
  induction t with
  | nil => rfl
  | cons c t ih =>
    obtain ⟨hc, ht⟩ := List.forall_mem_cons.mp h
    obtain ⟨hencode, hbyte, -⟩ := hc.encode
    rw [Utf8.encode_cons, hencode, isValidValue, List.singleton_append, List.all_cons,
      Bool.and_eq_true]
    refine ⟨?_, ih ht⟩
    rw [isValidByte, decide_eq_true_eq]
    refine hbyte.imp_left fun hrange => ⟨hrange.1, ?_⟩
    intro heq
    rw [heq] at hrange
    exact absurd hrange.2 (by decide)

end HeaderMap

def ConditionalHeaders.fromHeaderMap (headers : HeaderMap) : ConditionalHeaders where
  ifMatch := headers.getStr "if-match"
  ifNoneMatch := headers.getStr "if-none-match"
  ifModifiedSince := headers.getStr "if-modified-since"
  ifUnmodifiedSince := headers.getStr "if-unmodified-since"
