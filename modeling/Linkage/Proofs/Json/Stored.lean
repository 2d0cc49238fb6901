import Linkage.Proofs.Json.Accepts
import Linkage.Proofs.Json.Written
import Mathlib.Data.List.Forall2

/-!
# Values that are read back

What a shape writes for a value is read as this value again, also when the members of all objects
are sorted. Of a double this needs that its own text is read as the same double.
-/

namespace Linkage.Json
open Text

/-- The form of a double by itself. -/
def realFormat : Format Float := .ofShape .real id id

/-- The text that is written for a double is read as this double. -/
def ReadsBack (x : Float) : Prop := realFormat.decode (encode (Value.real x).pretty) = .ok x

theorem readsBack_iff {x : Float} : ReadsBack x ↔
    (realFormat.decode (encode (Value.real x).pretty)).toOption = some x := by
  rw [ReadsBack]
  cases realFormat.decode (encode (Value.real x).pretty) <;> simp [Except.toOption]

instance (x : Float) : Decidable (ReadsBack x) := decidable_of_iff' _ readsBack_iff

/-- A text of seventeen digits is rounded twice when it is read. -/
example : ¬ ReadsBack (1 / 11) := by decide +kernel

theorem Local.bind {α β : Type} {r : Reader α} {f : α → Reader β} {text : Bytes} (h : Local r text)
    (hf : ∀ a, Local (f a) []) : Local (r >>= f) text := by
  obtain ⟨outcome, houtcome⟩ := h
  cases outcome with
  | error fault =>
    refine ⟨.error fault, fun rest hrest => ?_⟩
    show (r (text ++ rest) >>= _) = _
    rw [houtcome rest hrest]
    rfl
  | ok a =>
    obtain ⟨outcome', houtcome'⟩ := hf a
    refine ⟨outcome', fun rest hrest => ?_⟩
    rw [bind_ok (houtcome rest hrest)]
    exact houtcome' rest hrest

theorem readAnyNumber_unsigned {bs : Bytes} (h : IsUnsigned bs) (wanted : String) (rest : Bytes) :
    readAnyNumber wanted (bs ++ rest) = readNumber false (bs ++ rest) := by
  obtain ⟨hwhole, -, -⟩ := h
  obtain ⟨d, ds, rfl, -⟩ := hwhole.not_padded
  have hd : isDigit d := hwhole.1.2 d List.mem_cons_self
  refine (peek_cons (starts_of_isDigit hd).1 ..).trans ?_
  rw [if_neg (digit_ne hd rfl), if_pos hd]
  rfl

theorem local_readAnyNumber {bs : Bytes} (h : IsNumber bs) (wanted : String) :
    Local (readAnyNumber wanted) bs := by
  cases h with
  | positive h =>
    exact (local_readNumber false h).congr fun rest _ => readAnyNumber_unsigned h wanted rest
  | negative h =>
    exact (local_readNumber true h).congr fun rest _ => peek_cons rfl ..

theorem reads_natural {width : Width} {n : Nat} (hn : n < width.bound) :
    Reads (readNatural width) (utf8 (Nat.toDigits 10 n)) n := by
  have hbound : n < Nat.pow 2 64 := by
    refine Nat.lt_of_lt_of_le hn ?_
    cases width <;> decide
  intro rest hrest
  have hread := reads_natural_digits hbound rest hrest
  rw [← readAnyNumber_unsigned (isUnsigned_digits n) width.name] at hread
  rw [readNatural, bind_ok hread]
  dsimp only
  rw [if_pos ⟨Int.natCast_nonneg n, by simpa using hn⟩]
  rfl

theorem ReadsBack.reads {x : Float} (hx : x.isFinite) (h : ReadsBack x) :
    Reads readReal (utf8 (realText x)) x := by
  have hlocal : Local readReal (utf8 (realText x)) := by
    refine (local_readAnyNumber (isNumber_realText hx) "f64").bind fun number => ?_
    cases number with
    | whole i => exact local_pure _
    | real y => exact local_pure _
  have htext : encode (Value.real x).pretty = utf8 (realText x) := encode_ofList (realText x)
  rw [ReadsBack, htext] at h
  change (readReal (utf8 (realText x)) >>= fun p : Float × Bytes =>
    if p.2.all isSpace then .ok p.1 else .error Fault.trailingText) = _ at h
  cases hread : readReal (utf8 (realText x)) with
  | error fault =>
    rw [hread] at h
    cases h
  | ok result =>
    obtain ⟨y, rest⟩ := result
    have hy : y = x := by
      rw [hread] at h
      change (if rest.all isSpace then Except.ok y else .error Fault.trailingText) = _ at h
      split_ifs at h
      cases h
      rfl
    exact hy ▸ (hlocal.reads hread).1

def Fields.names : Fields → List String
  | .done => []
  | .field name _ rest => name :: rest.names

/-- All fields with values. -/
def Fields.given : (fields : Fields) → fields.Values → fields.Options
  | .done, _ => ()
  | .field _ _ rest, (v, vs) => (some v, rest.given vs)

theorem Fields.complete_given : ∀ (fields : Fields) (vs : fields.Values),
    fields.complete (fields.given vs) = .ok vs
  | .done, _ => rfl
  | .field _ _ rest, (v, vs) => by
    show (rest.complete (rest.given vs)).map _ = _
    rw [rest.complete_given vs]
    rfl

theorem Fields.someMembers_given : ∀ (fields : Fields) (vs : fields.Values),
    fields.someMembers (fields.given vs) = fields.members vs
  | .done, _ => rfl
  | .field _ _ rest, (v, vs) => by
    show _ :: rest.someMembers (rest.given vs) = _ :: rest.members vs
    rw [rest.someMembers_given vs]

mutual

/-- The value fits its shape: whole numbers are in range, and names tell apart what they name. -/
def Shape.Fits : (s : Shape) → s.Value → Prop
  | .text, _ => True
  | .natural width, (n : Nat) => n < width.bound
  | .real, _ => True
  | .choice first second, _ => first ≠ second
  | .listOf item, (vs : List item.Value) => ∀ v ∈ vs, item.Fits v
  | .record _ fields, vs => fields.Fit (fields.given vs)
  | .settings _ fields, vs => fields.Fit vs

def Fields.Fit : (fields : Fields) → fields.Options → Prop
  | .done, _ => True
  | .field name shape rest, (v, vs) =>
    name ∉ rest.names ∧ (∀ w, v = some w → shape.Fits w) ∧ rest.Fit vs

end

theorem Fields.Fit.cons {name : String} {shape : Shape} {fields : Fields} {v : shape.Value}
    {vs : fields.Options} (hname : name ∉ fields.names) (hv : shape.Fits v) (h : fields.Fit vs) :
    (Fields.field name shape fields).Fit (some v, vs) := by
  refine ⟨hname, fun w hw => ?_, h⟩
  cases hw
  exact hv

theorem insertMember_perm (m : String × Value) (ms : List (String × Value)) :
    (insertMember m ms).Perm (m :: ms) := by
  induction ms with
  | nil => exact .refl _
  | cons x xs ih =>
    rw [insertMember]
    split_ifs
    · exact (ih.cons x).trans (.swap m x xs)
    · exact .refl _

theorem sortedMembers_perm (ms : List (String × Value)) :
    (sortedMembers ms).Perm (ms.map fun m => (m.1, m.2.sorted)) := by
  induction ms with
  | nil => exact .refl _
  | cons m ms ih =>
    rw [sortedMembers]
    exact (insertMember_perm _ _).trans (ih.cons _)

theorem sortedItems_eq (vs : List Value) : sortedItems vs = vs.map Value.sorted := by
  induction vs with
  | nil => rfl
  | cons v vs ih => rw [sortedItems, ih, List.map_cons]

theorem Fills.perm {α : Type} {accepts : α → Tree → Prop} {v w : Option α} {ts us : List Tree}
    (h : Fills accepts v w ts) (hperm : ts.Perm us) : Fills accepts v w us := by
  cases h with
  | kept => exact hperm.nil_eq ▸ .kept _
  | given h => exact hperm.singleton_eq ▸ .given h

/-- The order of members makes no difference. -/
theorem Fields.Takes.perm : ∀ {fields : Fields} {before after : fields.Options}
    {ms ns : List (String × Tree)}, fields.Takes before after ms → ms.Perm ns →
      fields.Takes before after ns
  | .done, _, _, _, _, _, _ => trivial
  | .field _ _ _, (_, _), (_, _), _, _, ⟨hfills, hrest⟩, hperm =>
    ⟨hfills.perm ((hperm.filter _).map _), hrest.perm (hperm.filter _)⟩

mutual

/-- The doubles in a value. -/
def Value.reals : Value → List Float
  | .real x => [x]
  | .array items => itemReals items
  | .object members => memberReals members
  | _ => []

def itemReals : List Value → List Float
  | [] => []
  | v :: vs => v.reals ++ itemReals vs

def memberReals : List (String × Value) → List Float
  | [] => []
  | (_, v) :: ms => v.reals ++ memberReals ms

end

theorem itemReals_eq (vs : List Value) : itemReals vs = vs.flatMap Value.reals := by
  induction vs with
  | nil => rfl
  | cons v vs ih => rw [itemReals, ih, List.flatMap_cons]

theorem memberReals_eq (ms : List (String × Value)) :
    memberReals ms = ms.flatMap fun m => m.2.reals := by
  induction ms with
  | nil => rfl
  | cons m ms ih => rw [memberReals, ih, List.flatMap_cons]

/-- A double that is written and read again as it is. -/
def Kept (x : Float) : Prop := x.isFinite ∧ ReadsBack x

def sortedTree (m : String × Value) : String × Tree := (m.1, m.2.sorted.tree)

theorem Fields.mem_names : ∀ {fields : Fields} {vs : fields.Options} {m : String × Value},
    m ∈ fields.someMembers vs → m.1 ∈ fields.names
  | .field _ _ _, (none, _), _, h => List.mem_cons_of_mem _ (Fields.mem_names h)
  | .field _ _ _, (some _, _), _, .head _ => List.mem_cons_self
  | .field _ _ _, (some _, _), _, .tail _ h => List.mem_cons_of_mem _ (Fields.mem_names h)

theorem valuesOf_eq_nil {name : String} {ms : List (String × Tree)} (h : ∀ m ∈ ms, m.1 ≠ name) :
    valuesOf name ms = [] := by
  rw [valuesOf, List.map_eq_nil_iff, List.filter_eq_nil_iff]
  exact fun m hm => by simpa using h m hm

theorem without_eq_self {name : String} {ms : List (String × Tree)} (h : ∀ m ∈ ms, m.1 ≠ name) :
    without name ms = ms :=
  List.filter_eq_self.mpr fun m hm => by simpa using h m hm

theorem Fields.sorted_ne {fields : Fields} {name : String} (hname : name ∉ fields.names)
    (vs : fields.Options) : ∀ m ∈ (fields.someMembers vs).map sortedTree, m.1 ≠ name := by
  rintro _ hm rfl
  obtain ⟨m, hmember, rfl⟩ := List.mem_map.mp hm
  exact hname (Fields.mem_names hmember)

theorem Fields.Takes.sorted {fields : Fields} {before after : fields.Options}
    {ms : List (String × Value)} (h : fields.Takes before after (ms.map sortedTree)) :
    fields.Takes before after (memberTrees (sortedMembers ms)) := by
  refine h.perm ?_
  rw [memberTrees_eq]
  have hperm := (sortedMembers_perm ms).symm.map fun m => (m.1, m.2.tree)
  rwa [List.map_map] at hperm

mutual

/-- The shape takes the sorted tree of what it writes for a value. -/
theorem Shape.accepts_toJson : ∀ (s : Shape) {v : s.Value}, s.Fits v →
    (∀ x ∈ (s.toJson v).reals, Kept x) → s.Accepts v (s.toJson v).sorted.tree
  | .text, _, _, _ => rfl
  | .natural width, n, hfits, _ => ⟨_, rfl, reads_natural hfits⟩
  | .real, x, _, hreals => by
    obtain ⟨hfinite, hback⟩ := hreals x List.mem_cons_self
    exact ⟨_, if_pos hfinite, hback.reads hfinite⟩
  | .choice first second, b, hne, _ => ⟨hne, rfl⟩
  | .listOf item, (vs : List item.Value), hfits, hreals => by
    refine ⟨vs.map fun v => (item.toJson v).sorted.tree, ?_, ?_⟩
    · show Tree.array (itemTrees (sortedItems (vs.map item.toJson))) = _
      rw [sortedItems_eq, itemTrees_eq, List.map_map, List.map_map]
      rfl
    · rw [List.forall₂_map_right_iff, List.forall₂_same]
      refine fun v hv => item.accepts_toJson (hfits v hv) fun x hx => hreals x ?_
      show x ∈ itemReals (vs.map item.toJson)
      rw [itemReals_eq, List.flatMap_map]
      exact List.mem_flatMap_of_mem hv hx
  | .record name fields, (vs : fields.Values), hfit, hreals => by
    change ∀ x ∈ memberReals (fields.members vs), Kept x at hreals
    rw [← fields.someMembers_given vs] at hreals
    have htakes := fields.takes_members hfit hreals
    rw [Fields.someMembers_given] at htakes
    exact .inl ⟨_, rfl, _, fields.complete_given vs, htakes.sorted⟩
  | .settings name fields, vs, hfit, hreals =>
    ⟨_, rfl, (fields.takes_members hfit hreals).sorted⟩

theorem Fields.takes_members : ∀ (fields : Fields) {vs : fields.Options}, fields.Fit vs →
    (∀ x ∈ memberReals (fields.someMembers vs), Kept x) →
      fields.Takes fields.noOptions vs ((fields.someMembers vs).map sortedTree)
  | .done, _, _, _ => trivial
  | .field name shape fields, (none, vs), ⟨hname, _, hfit⟩, hreals => by
    have hne := Fields.sorted_ne hname vs
    have htakes := fields.takes_members hfit hreals
    rw [← without_eq_self hne] at htakes
    exact ⟨valuesOf_eq_nil hne ▸ .kept none, htakes⟩
  | .field name shape fields, (some v, vs), ⟨hname, hfits, hfit⟩, hreals => by
    have hne := Fields.sorted_ne hname vs
    have haccepts := shape.accepts_toJson (hfits v rfl) fun x hx =>
      hreals x (List.mem_append_left _ hx)
    have htakes := fields.takes_members hfit fun x hx => hreals x (List.mem_append_right _ hx)
    show Fills _ _ _ (valuesOf name ((name, (shape.toJson v).sorted.tree) :: _)) ∧
      fields.Takes _ _ (without name ((name, _) :: _))
    rw [valuesOf_cons_self, without_cons_self, valuesOf_eq_nil hne, without_eq_self hne]
    exact ⟨.given haccepts, htakes⟩

end

end Linkage.Json
