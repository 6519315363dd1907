import HashedBroker.JsonRoundtrip
import HashedBroker.SortedMembers

/-!
# Members in another order

The members of a JSON object have no order of their own. Two values are reorderings of one another
when they differ in the order of members only, at any depth. A reordering of a readable value is
readable, and as long as no name occurs twice it has the same members.
-/
namespace HashedBroker.JsonText
open SortedMembers

inductive Reordered : Json → Json → Prop
  | null : Reordered .null .null
  | bool (b : Bool) : Reordered (.bool b) (.bool b)
  | int (n : ℤ) : Reordered (.int n) (.int n)
  | float (lexeme : List Char) : Reordered (.float lexeme) (.float lexeme)
  | str (s : String) : Reordered (.str s) (.str s)
  | arr {xs ys : List Json} (elements : List.Forall₂ Reordered xs ys) :
      Reordered (.arr xs) (.arr ys)
  | obj {ms ns ns' : List (String × Json)} (names : ns.map Prod.fst = ms.map Prod.fst)
      (values : List.Forall₂ Reordered (ms.map Prod.snd) (ns.map Prod.snd))
      (order : ns.Perm ns') : Reordered (.obj ms) (.obj ns')

theorem exists_of_mem_forall₂ {α β : Type} {R : α → β → Prop} {xs : List α} {ys : List β}
    (h : List.Forall₂ R xs ys) {y : β} (hy : y ∈ ys) : ∃ x ∈ xs, R x y := by
  induction h with
  | nil => cases hy
  | @cons x y' xs ys hxy _ ih =>
    rcases List.mem_cons.mp hy with rfl | hy
    · exact ⟨x, List.mem_cons_self, hxy⟩
    · obtain ⟨x', hx', hR⟩ := ih hy
      exact ⟨x', List.mem_cons_of_mem x hx', hR⟩

theorem Readable.reordered {finite : List Char → Bool} {depth : ℕ} {i : Json}
    (h : Readable finite depth i) : ∀ {j}, Reordered i j → Readable finite depth j := by
  induction h with
  | null depth =>
    intro j hr
    cases hr
    exact .null depth
  | bool depth b =>
    intro j hr
    cases hr
    exact .bool depth b
  | int depth low high =>
    intro j hr
    cases hr
    exact .int depth low high
  | float depth chars number =>
    intro j hr
    cases hr
    exact .float depth chars number
  | str depth s =>
    intro j hr
    cases hr
    exact .str depth s
  | arr _ ih =>
    intro j hr
    cases hr with
    | arr helements =>
      refine .arr fun y hy => ?_
      obtain ⟨x, hx, hxy⟩ := exists_of_mem_forall₂ helements hy
      exact ih x hx hxy
  | obj _ ih =>
    intro j hr
    cases hr with
    | obj hnames hvalues horder =>
      refine .obj fun n hn => ?_
      have hvalue := List.mem_map_of_mem (f := Prod.snd) (horder.mem_iff.mpr hn)
      obtain ⟨v, hv, hvn⟩ := exists_of_mem_forall₂ hvalues hvalue
      obtain ⟨m, hm, rfl⟩ := List.mem_map.mp hv
      exact ih m hm hvn

/-! ## Members of reordered objects -/

variable {ms ns : List (String × Json)}

theorem lookup_perm (h : ms.Perm ns) (hn : (ms.map Prod.fst).Nodup) (k : String) :
    ns.lookup k = ms.lookup k := by
  induction h with
  | nil => rfl
  | cons m _ ih =>
    rw [lookup_cons_ite, lookup_cons_ite, ih (List.nodup_cons.mp hn).2]
  | swap m m' ms =>
    have hne : m.1 ≠ m'.1 := by
      intro heq
      simp [heq] at hn
    simp only [lookup_cons_ite]
    split_ifs with hm hm'
    · exact absurd (hm.symm.trans hm') hne
    · rfl
    · rfl
    · rfl
  | trans h₁ _ ih₁ ih₂ =>
    rw [ih₂ ((h₁.map Prod.fst).nodup hn), ih₁ hn]

theorem lookup_forall₂ {R : Json → Json → Prop} (hnames : ns.map Prod.fst = ms.map Prod.fst)
    (hvalues : List.Forall₂ R (ms.map Prod.snd) (ns.map Prod.snd)) (k : String) :
    Option.Rel R (ms.lookup k) (ns.lookup k) := by
  induction ms generalizing ns with
  | nil =>
    obtain rfl : ns = [] := List.map_eq_nil_iff.mp hnames
    exact .none
  | cons m ms ih =>
    cases ns with
    | nil => cases hnames
    | cons n ns =>
      obtain ⟨hname, hnames⟩ := List.cons.inj hnames
      obtain ⟨hvalue, hvalues⟩ := List.forall₂_cons.mp hvalues
      rw [lookup_cons_ite, lookup_cons_ite, hname]
      split_ifs
      · exact .some hvalue
      · exact ih hnames hvalues

/-- A reordering of an object is an object whose members are reorderings of its members. -/
theorem Reordered.of_obj {j : Json} (h : Reordered (.obj ms) j) (hn : (ms.map Prod.fst).Nodup) :
    ∃ ns, j = .obj ns ∧ (ns.map Prod.fst).Nodup ∧
      ∀ k, Option.Rel Reordered (ms.lookup k) (ns.lookup k) := by
  cases h with
  | @obj _ ns ns' hnames hvalues horder =>
    have hns : (ns.map Prod.fst).Nodup := by
      rw [hnames]
      exact hn
    refine ⟨ns', rfl, (horder.map Prod.fst).nodup hns, fun k => ?_⟩
    rw [lookup_perm horder hns]
    exact lookup_forall₂ hnames hvalues k

end HashedBroker.JsonText
