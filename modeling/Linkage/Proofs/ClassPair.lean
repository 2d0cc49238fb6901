import Linkage.Cluster.Record
import Linkage.Proofs.Json.Members
import Linkage.Proofs.Matrix.Entries

/-!
# Pairs in canonical order

A pair that is made of two names holds them in the order of their bytes, so two classes have one
pair and a class has none with itself. A pair that is read keeps the order of its text, whatever
that is.
-/

namespace Linkage.ClassPair
open Json Text

variable {p q : ClassPair} {a b : String}

/-- The lesser name comes first. -/
def Canonical (p : ClassPair) : Prop := Before p.first p.second

/-- The pair is one of these two classes, whichever comes first. -/
def Joins (p : ClassPair) (a b : String) : Prop :=
  a = p.first ∧ b = p.second ∨ a = p.second ∧ b = p.first

/-- The ways to a pair: it is made of two names, or it is read, by itself or in a coupling. -/
inductive Obtained : ClassPair → Prop
  | made {a b : String} {p : ClassPair} (h : of? a b = some p) : Obtained p
  | read {content : Bytes} {p : ClassPair} (h : format.decode content = .ok p) : Obtained p
  | inCoupling {content : Bytes} {c : PairCoupling Float}
      (h : PairCoupling.format.decode content = .ok c) : Obtained c.pair

theorem canonical_of_of? (h : of? a b = some p) : p.Canonical ∧ p.Joins a b :=
  of?_eq_some_iff.mp h

theorem of?_eq_none_iff : of? a b = none ↔ a = b := by
  rw [← compare_eq_iff_eq (a := a) (b := b)]
  unfold of?
  cases compare a b <;> simp

theorem canonical_iff_of? : p.Canonical ↔ of? p.first p.second = some p := by
  rw [of?_eq_some_iff]
  constructor
  · intro h
    exact ⟨h, Or.inl ⟨rfl, rfl⟩⟩
  · intro h
    exact h.1

theorem Canonical.eq_of_joins (hp : p.Canonical) (hq : q.Canonical) (hpab : p.Joins a b)
    (hqab : q.Joins a b) : p = q := by
  have hp : of? a b = some p := of?_eq_some_iff.mpr ⟨hp, hpab⟩
  have hq : of? a b = some q := of?_eq_some_iff.mpr ⟨hq, hqab⟩
  exact Option.some.inj (hp.symm.trans hq)

/-- A pair as a tree: an object with the two names as members, or an array of them. -/
def TreeOf (p : ClassPair) (t : Tree) : Prop :=
  t.HasTexts [("first", p.first), ("second", p.second)] ∨
    t = .array [.text p.first, .text p.second]

/-- A coupling as a tree: an object with a pair and two numbers as members, or an array of them. -/
def CouplingTreeOf (c : PairCoupling Float) (t : Tree) : Prop :=
  ∃ pair count weight, TreeOf c.pair pair ∧ Reads (readNatural .word64) count c.invocations ∧
    Reads readReal weight c.weight ∧
    ((∃ ms, t = .object ms ∧ valuesOf "pair" ms = [pair] ∧
        valuesOf "invocations" ms = [.number count] ∧ valuesOf "weight" ms = [.number weight]) ∨
      t = .array [pair, .number count, .number weight])

theorem TreeOf.accepts {t : Tree} (h : TreeOf p t) :
    format.input.Accepts (format.toOutput p) t := by
  rcases h with hobject | rfl
  · exact Tree.HasTexts.accepts (by decide) hobject
  · exact Or.inr ⟨_, rfl, _, _, rfl, rfl, _, _, rfl, rfl, rfl⟩

theorem CouplingTreeOf.accepts {c : PairCoupling Float} {t : Tree} (h : CouplingTreeOf c t) :
    PairCoupling.format.Accepts c t := by
  obtain ⟨pair, count, weight, hpair, hcount, hweight, htree⟩ := h
  have haccepts := hpair.accepts
  refine ⟨(format.toOutput c.pair, c.invocations, c.weight, ()), ?_, rfl⟩
  rcases htree with ⟨ms, rfl, hp, hn, hw⟩ | rfl
  · apply Shape.accepts_record
    · decide
    · exact ⟨⟨_, hp, haccepts⟩, ⟨_, hn, _, rfl, hcount⟩, ⟨_, hw, _, rfl, hweight⟩, trivial⟩
  · exact Or.inr ⟨_, rfl, _, _, rfl, haccepts, _, _, rfl, ⟨_, rfl, hcount⟩, _, _, rfl,
      ⟨_, rfl, hweight⟩, rfl⟩

/-- Of two names one canonical pair is made, if they differ. An object or an array, alone or in a
coupling, is read as the pair that it holds, so what is read is canonical just if the text has the
lesser name first. -/
theorem canonical_iff_text_ordered (a b : String) :
    (of? a b = none ↔ a = b) ∧
    (∀ p, of? a b = some p → p.Canonical ∧ p.Joins a b) ∧
    (∀ p q : ClassPair, p.Canonical → q.Canonical → p.Joins a b → q.Joins a b → p = q) ∧
    (Canonical ⟨a, b⟩ ↔ of? a b = some ⟨a, b⟩) ∧
    (∀ t before own after, TreeOf ⟨a, b⟩ t → t.Spelled own → Blanks before → Blanks after →
      ∃ p, format.decode (before ++ (own ++ after)) = .ok p ∧ p = ⟨a, b⟩ ∧
        (p.Canonical ↔ Before a b)) ∧
    (∀ n w t before own after, CouplingTreeOf ⟨⟨a, b⟩, n, w⟩ t → t.Spelled own →
      Blanks before → Blanks after →
        ∃ c, PairCoupling.format.decode (before ++ (own ++ after)) = .ok c ∧
          c = ⟨⟨a, b⟩, n, w⟩ ∧ (c.pair.Canonical ↔ Before a b)) := by
  refine ⟨of?_eq_none_iff, fun p => canonical_of_of?, fun p q => Canonical.eq_of_joins,
    canonical_iff_of?, ?_, ?_⟩
  · intro t before own after htree hown hbefore hafter
    have haccepts : format.Accepts ⟨a, b⟩ t := ⟨_, htree.accepts, rfl⟩
    exact ⟨_, haccepts.decode hown hbefore hafter, rfl, Iff.rfl⟩
  · intro n w t before own after htree hown hbefore hafter
    exact ⟨_, htree.accepts.decode hown hbefore hafter, rfl, Iff.rfl⟩

/-- Two names in either order, and a coupling whose members stand in another order and whose pair is
an array. -/
theorem canonical_of_turned_text :
    let pair : Value := .object [("second", .text "Zoo"), ("note", .null), ("first", .text "Ape")]
    let listed : Value := .array [.text "Ape", .text "Zoo"]
    let coupling : Value :=
      .object [("weight", .real 0.5), ("pair", listed), ("invocations", .natural 3)]
    Canonical ⟨"Ape", "Zoo"⟩ ∧ of? "Ape" "Zoo" = some ⟨"Ape", "Zoo"⟩ ∧
      format.decode (encode pair.pretty) = .ok ⟨"Ape", "Zoo"⟩ ∧
      format.decode (encode listed.pretty) = .ok ⟨"Ape", "Zoo"⟩ ∧
      PairCoupling.format.decode (encode coupling.pretty) = .ok ⟨⟨"Ape", "Zoo"⟩, 3, 0.5⟩ := by
  intro pair listed coupling
  obtain ⟨-, hmade, -, -, hread, hcoupling⟩ := canonical_iff_text_ordered "Ape" "Zoo"
  have hof : of? "Ape" "Zoo" = some ⟨"Ape", "Zoo"⟩ := by decide
  have hobject : TreeOf ⟨"Ape", "Zoo"⟩ pair.tree := by
    refine Or.inl ⟨_, rfl, ?_⟩
    simp only [List.forall_mem_cons]
    exact ⟨rfl, rfl, List.forall_mem_nil _⟩
  have hweight : Reads readReal (utf8 (realText 0.5)) 0.5 :=
    ReadsBack.reads (by decide +kernel) (by decide +kernel)
  have hcount : Reads (readNatural .word64) (utf8 (Nat.toDigits 10 3)) 3 :=
    reads_natural (by decide)
  have harray : TreeOf ⟨"Ape", "Zoo"⟩ listed.tree := Or.inr rfl
  have hcouplingTree : CouplingTreeOf ⟨⟨"Ape", "Zoo"⟩, 3, 0.5⟩ coupling.tree :=
    ⟨_, _, _, harray, hcount, hweight, Or.inl ⟨_, rfl, rfl, rfl, rfl⟩⟩
  obtain ⟨-, hpair, rfl, -⟩ := hread _ [] _ [] hobject pair.spelled_pretty blanks_nil blanks_nil
  obtain ⟨-, hlisted, rfl, -⟩ := hread _ [] _ [] harray listed.spelled_pretty blanks_nil blanks_nil
  obtain ⟨-, hcoupled, rfl, -⟩ :=
    hcoupling _ _ _ [] _ [] hcouplingTree coupling.spelled_pretty blanks_nil blanks_nil
  rw [List.append_nil, List.nil_append] at hpair hlisted hcoupled
  exact ⟨(hmade _ hof).1, hof, hpair, hlisted, hcoupled⟩

/-- Texts are read with a greater name first, and with one name twice. -/
theorem pair_read_out_of_order :
    let turned := encode "\x7b\"first\":\"B\",\"second\":\"A\"\x7d"
    let twice := encode "\x7b\"first\":\"A\",\"second\":\"A\"\x7d"
    format.decode turned = .ok ⟨"B", "A"⟩ ∧ format.decode twice = .ok ⟨"A", "A"⟩ ∧
      ¬ ∀ p, Obtained p → p.Canonical := by
  intro turned twice
  have hturned : format.decode turned = .ok ⟨"B", "A"⟩ := rfl
  refine ⟨hturned, rfl, ?_⟩
  intro hall
  have hbefore := before_iff_compare.mp (hall _ (.read hturned))
  revert hbefore
  decide

end Linkage.ClassPair
