import HashedBroker.ProtocolDecoding

/-!
# Canonical bytes

The signed bytes are the compact text of an object with sorted names. The text reads back as that
object and the object decodes to the message without its signature, so nothing but the signature
is lost between a message and its bytes.
-/
namespace HashedBroker.Protocol
open JsonText SortedMembers

theorem canonicalValue_eq (m : ClientMessage) :
    canonicalValue m = .obj (m.withSignature "").toValue := by
  rw [canonicalValue, ClientMessage.insertKey_signature]

/-! ## What is written can be read -/

theorem mem_insertAll {ms acc : List (String × Json)} {x : String × Json}
    (h : x ∈ insertAll ms acc) : x ∈ ms ∨ x ∈ acc := by
  induction ms generalizing acc with
  | nil => exact Or.inr h
  | cons m ms ih =>
    rcases ih h with h | h
    · exact Or.inl (List.mem_cons_of_mem _ h)
    · rcases mem_insertKey h with rfl | h
      · exact Or.inl (by simp)
      · exact Or.inr h

theorem mem_present {fs : List (String × Option Json)} {x : String × Json}
    (h : x ∈ present fs) : (x.1, some x.2) ∈ fs := by
  obtain ⟨⟨name, value⟩, hf, hv⟩ := List.mem_filterMap.mp h
  obtain ⟨v, rfl, rfl⟩ := Option.map_eq_some_iff.mp hv
  exact hf

theorem stringList_readable {finite : List Char → Bool} (depth : ℕ) (xs : List String) :
    Readable finite (depth + 1) (stringList xs) := by
  refine .arr fun x hx => ?_
  obtain ⟨s, _, rfl⟩ := List.mem_map.mp hx
  exact .str depth s

theorem PeerAddresses.toValue_readable {finite : List Char → Bool} (depth : ℕ)
    (a : PeerAddresses) : Readable finite (depth + 2) a.toValue := by
  rw [PeerAddresses.toValue_eq]
  refine .obj (List.forall_mem_cons.mpr ⟨stringList_readable depth a.lan, ?_⟩)
  simp only [List.mem_singleton, forall_eq]
  cases a.publicAddress with
  | none => exact .null _
  | some s => exact .str _ s

namespace ClientMessage

theorem int64_readable {finite : List Char → Bool} (depth : ℕ) (t : Int64) :
    Readable finite depth (.int t.toInt) := by
  obtain ⟨hl, hh⟩ := int64_range t
  exact .int depth hl (hh.trans (by norm_num))

theorem fields_readable {finite : List Char → Bool} (depth : ℕ) (m : ClientMessage) :
    ∀ f ∈ m.fields, ∀ v, f.2 = some v → Readable finite (depth + 2) v := by
  have hstr : ∀ s : String, Readable finite (depth + 2) (.str s) := Readable.str _
  have hint : ∀ t : Int64, Readable finite (depth + 2) (.int t.toInt) := int64_readable _
  have hlist : ∀ xs : List String, Readable finite (depth + 2) (stringList xs) :=
    stringList_readable (depth + 1)
  have haddr : ∀ a : PeerAddresses, Readable finite (depth + 2) a.toValue :=
    PeerAddresses.toValue_readable depth
  cases m <;> simp [fields, hstr, hint, hlist, haddr]

theorem toValue_readable {finite : List Char → Bool} (m : ClientMessage) :
    Readable finite 127 (.obj m.toValue) := by
  refine .obj fun x hx => ?_
  rcases mem_insertAll hx with hx | hx
  · rcases List.mem_cons.mp hx with rfl | hx
    · exact .str _ _
    · exact m.fields_readable 124 _ (mem_present hx) x.2 rfl
  · cases hx

theorem ofJson_toValue (m : ClientMessage) : ofJson (.obj m.toValue) = some m :=
  ofJson_of_lookup m.toValue_increasing.nodup m.lookup_toValue

end ClientMessage

theorem canonicalValue_readable {finite : List Char → Bool} (m : ClientMessage) :
    Readable finite 127 (canonicalValue m) := by
  rw [canonicalValue_eq]
  exact ClientMessage.toValue_readable _

theorem ofJson_canonicalValue (m : ClientMessage) :
    ClientMessage.ofJson (canonicalValue m) = some (m.withSignature "") := by
  rw [canonicalValue_eq]
  exact ClientMessage.ofJson_toValue _

/-! ## What the bytes determine -/

theorem canonicalValue_of_bytes {m₁ m₂ : ClientMessage}
    (h : canonicalBytes m₁ = canonicalBytes m₂) : canonicalValue m₁ = canonicalValue m₂ := by
  have hs := String.toByteArray_inj.mp h
  have hl := String.ofList_injective hs
  have hr : ∀ m, Readable (fun _ => true) 127 (canonicalValue m) := canonicalValue_readable
  exact print_injective (hr m₁) (hr m₂) hl

namespace ClientMessage

@[simp] theorem withSignature_self (m : ClientMessage) : m.withSignature m.signature = m := by
  cases m <;> rfl

@[simp] theorem withSignature_withSignature (m : ClientMessage) (s t : String) :
    (m.withSignature s).withSignature t = m.withSignature t := by
  cases m <;> rfl

@[simp] theorem signature_withSignature (m : ClientMessage) (s : String) :
    (m.withSignature s).signature = s := by
  cases m <;> rfl

end ClientMessage

/-- Two messages have the same bytes exactly when they differ in nothing but the signature. -/
theorem canonicalBytes_eq {m₁ m₂ : ClientMessage} :
    canonicalBytes m₁ = canonicalBytes m₂ ↔ ∃ s, m₂ = m₁.withSignature s := by
  constructor
  · intro h
    have hv := congrArg ClientMessage.ofJson (canonicalValue_of_bytes h)
    rw [ofJson_canonicalValue, ofJson_canonicalValue] at hv
    have hm := congrArg (ClientMessage.withSignature m₂.signature) (Option.some.inj hv)
    simp only [ClientMessage.withSignature_withSignature, ClientMessage.withSignature_self] at hm
    exact ⟨m₂.signature, hm.symm⟩
  · rintro ⟨s, rfl⟩
    rw [canonicalBytes, canonicalBytes, canonicalValue_eq, canonicalValue_eq,
      ClientMessage.withSignature_withSignature]

end HashedBroker.Protocol
