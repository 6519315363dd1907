import HashedBroker.JsonReordering
import HashedBroker.Auth

/-!
# Messages on the wire

A message can be written with the members of its objects in any order. It reads as itself, so the
receiver verifies the bytes the sender has signed.
-/
namespace HashedBroker.Protocol
open JsonText SortedMembers

theorem stringList_of_reordered {xs : List String} {j : Json} (h : Reordered (stringList xs) j) :
    j = stringList xs := by
  cases h with
  | @arr _ ys helements =>
    congr 1
    induction xs generalizing ys with
    | nil =>
      cases helements
      rfl
    | cons x xs ih =>
      obtain ⟨y, ys, hxy, hrest, rfl⟩ := List.forall₂_cons_left_iff.mp helements
      cases hxy
      rw [ih hrest, List.map_cons]

/-- The value holds no object, so it has no other order. -/
def Plain (v : Json) : Prop :=
  (∃ s, v = .str s) ∨ (∃ n, v = .int n) ∨ ∃ xs, v = stringList xs

theorem Plain.reordered {v w : Json} (h : Plain v) (hr : Reordered v w) : w = v := by
  rcases h with ⟨s, rfl⟩ | ⟨n, rfl⟩ | ⟨xs, rfl⟩
  · cases hr
    rfl
  · cases hr
    rfl
  · exact stringList_of_reordered hr

theorem asAddresses_of_reordered {a : PeerAddresses} {j : Json} (h : Reordered a.toValue j) :
    asAddresses j = some a := by
  rw [PeerAddresses.toValue_eq] at h
  obtain ⟨ns, rfl, hn, hl⟩ := h.of_obj (by simp)
  have hlan := hl "lan"
  have hpublic := hl "public"
  simp only [lookup_cons_ite, if_true, String.reduceEq, if_false] at hlan hpublic
  cases hlan' : ns.lookup "lan" with
  | none =>
    rw [hlan'] at hlan
    cases hlan
  | some lan =>
    rw [hlan'] at hlan
    cases hlan with
    | some hlist =>
      obtain rfl := stringList_of_reordered hlist
      cases hpublic' : ns.lookup "public" with
      | none =>
        rw [hpublic'] at hpublic
        cases hpublic
      | some address =>
        rw [hpublic'] at hpublic
        cases hpublic with
        | some haddress =>
          obtain ⟨lan, publicAddress⟩ := a
          cases publicAddress with
          | none =>
            cases haddress
            simp [asAddresses, addressesFrom, defaulted_fromMap hn, hlan', hpublic', asOption]
          | some address =>
            cases haddress
            simp [asAddresses, addressesFrom, defaulted_fromMap hn, hlan', hpublic', asOption,
              asString]

namespace ClientMessage

theorem fields_plain (m : ClientMessage) :
    ∀ f ∈ m.fields, f.1 ≠ "addresses" → ∀ v, f.2 = some v → Plain v := by
  have hstr : ∀ s : String, Plain (.str s) := fun s => Or.inl ⟨s, rfl⟩
  have hint : ∀ n : ℤ, Plain (.int n) := fun n => Or.inr (Or.inl ⟨n, rfl⟩)
  have hlist : ∀ xs : List String, Plain (stringList xs) := fun xs => Or.inr (Or.inr ⟨xs, rfl⟩)
  cases m <;> simp [fields, hstr, hint, hlist]

theorem plain_of_lookup {m : ClientMessage} {k : String} {v : Json}
    (h : m.members.lookup k = some v) (hk : k ≠ "addresses") : Plain v := by
  obtain ⟨before, after, hsplit, -⟩ := List.lookup_eq_some_iff.mp h
  have hmem : (k, v) ∈ m.members := by
    rw [hsplit]
    exact List.mem_append_right _ List.mem_cons_self
  rcases List.mem_cons.mp hmem with heq | hmem
  · cases heq
    exact Or.inl ⟨_, rfl⟩
  · exact m.fields_plain _ (mem_present hmem) hk v rfl

theorem ofJson_of_reordered {m : ClientMessage} {j : Json} (h : Reordered (.obj m.members) j) :
    ofJson j = some m := by
  obtain ⟨ns, rfl, hn, hl⟩ := h.of_obj m.members_nodup
  refine ofJson_of_fields hn (fun k hk => ?_) ?_
  · have hrel := hl k
    cases hv : m.members.lookup k with
    | none =>
      rw [hv] at hrel
      generalize ns.lookup k = w at hrel
      cases hrel
      rfl
    | some v =>
      rw [hv] at hrel
      generalize ns.lookup k = w at hrel
      cases hrel with
      | some hvw => rw [(plain_of_lookup hv hk).reordered hvw]
  · have hrel := hl "addresses"
    rw [lookup_members, if_neg (by decide)] at hrel ⊢
    generalize ns.lookup "addresses" = w at hrel
    cases m with
    | register pubkey handle addresses kind timestamp signature requestId =>
      simp only [fields, lookup_cons_ite, if_true, String.reduceEq, if_false, Option.join_some]
        at hrel ⊢
      cases hrel with
      | some hvw =>
        rw [Option.bind_some, Option.bind_some, asAddresses_of_reordered hvw, asAddresses_toValue]
    | _ =>
      simp only [fields, lookup_cons_ite, String.reduceEq, if_false, List.lookup_nil,
        Option.join_none] at hrel ⊢
      cases hrel
      rfl

theorem members_readable {finite : List Char → Bool} (m : ClientMessage) :
    Readable finite 127 (.obj m.members) := by
  refine .obj fun x hx => ?_
  rcases List.mem_cons.mp hx with rfl | hx
  · exact .str _ _
  · exact m.fields_readable 124 _ (mem_present hx) x.2 rfl

end ClientMessage

/-- A message that is written with the members of its objects in any order and read again is the
same message, over the same bytes and with the same verdict at the same time. -/
theorem survives_wire (crates : Crates) (m : ClientMessage) {j : Json}
    (h : Reordered (.obj m.members) j) :
    ClientMessage.fromStr crates.finite (String.ofList (print j)) = some m ∧
      ∀ received, ClientMessage.fromStr crates.finite (String.ofList (print j)) = some received →
        canonicalBytes received = canonicalBytes m ∧
          ∀ now, Auth.verifySignedMessage crates now received =
            Auth.verifySignedMessage crates now m := by
  have hread : ClientMessage.fromStr crates.finite (String.ofList (print j)) = some m := by
    rw [ClientMessage.fromStr, parse_print (m.members_readable.reordered h), Option.bind_some]
    exact ClientMessage.ofJson_of_reordered h
  refine ⟨hread, fun received hreceived => ?_⟩
  rw [hread] at hreceived
  cases hreceived
  exact ⟨rfl, fun _ => rfl⟩

def introduction : ClientMessage :=
  .register "ab" none ⟨["10.0.0.1:1"], none⟩ none 7 "cd" none

/-- The members of the message, those of its addresses the other way round. -/
def introductionMembers : List (String × Json) :=
  [("type", .str "register"), ("pubkey", .str "ab"),
    ("addresses", .obj [("public", .null), ("lan", stringList ["10.0.0.1:1"])]),
    ("timestamp", .int 7), ("signature", .str "cd")]

theorem survives_wire_backwards :
    ClientMessage.fromStr Crates.demo.finite
      (String.ofList (print (.obj introductionMembers.reverse))) = some introduction := by
  have haddresses : Reordered (PeerAddresses.toValue ⟨["10.0.0.1:1"], none⟩)
      (.obj [("public", .null), ("lan", stringList ["10.0.0.1:1"])]) := by
    rw [PeerAddresses.toValue_eq]
    refine .obj rfl ?_ (List.Perm.swap _ _ _)
    exact .cons (.arr (.cons (.str _) .nil)) (.cons .null .nil)
  have hvalues : List.Forall₂ Reordered (introduction.members.map Prod.snd)
      (introductionMembers.map Prod.snd) :=
    .cons (.str _) (.cons (.str _) (.cons haddresses (.cons (.int _) (.cons (.str _) .nil))))
  have hnames : introductionMembers.map Prod.fst = introduction.members.map Prod.fst := rfl
  have hreordered : Reordered (.obj introduction.members) (.obj introductionMembers.reverse) :=
    .obj hnames hvalues (List.reverse_perm _).symm
  exact (survives_wire Crates.demo introduction hreordered).1

end HashedBroker.Protocol
