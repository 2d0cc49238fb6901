import Linkage.Proofs.Cluster.Outcome
import Linkage.Proofs.Matrix.Entries
import Linkage.Proofs.Report.Files
import Linkage.Proofs.Report.Markup

/-!
# The graph is read back

The file of the graph holds one node for each class and one edge for each pair, in order and with
nothing else between them. A node has the name of its class and the cluster that the class is in,
and the ends of an edge are the nodes of its two classes, whatever characters the names have.
-/

namespace Linkage.Report

def graphmlTag : Tag := ⟨"graphml", [("xmlns", "http://graphml.graphdrawing.org/xmlns")]⟩

def graphTag : Tag := ⟨"graph", [("id", "G"), ("edgedefault", "undirected")]⟩

def dataTag (key : String) : Tag := ⟨"data", [("key", key)]⟩

def nodeTag (index : Nat) : Tag := ⟨"node", [("id", "n" ++ toString index)]⟩

def edgeTag (index source target : Nat) : Tag :=
  ⟨"edge", [("id", "e" ++ toString index), ("source", "n" ++ toString source),
    ("target", "n" ++ toString target)]⟩

/-- The declaration of a property of all nodes or all edges. -/
def keyTag (id owner name type : String) : Tag :=
  ⟨"key", [("id", id), ("for", owner), ("attr.name", name), ("attr.type", type)]⟩

def keyTags : List Tag :=
  [keyTag "label" "node" "label" "string", keyTag "cluster" "node" "cluster" "int",
    keyTag "weight" "edge" "weight" "double", keyTag "elabel" "edge" "label" "string"]

def node (index : Nat) (name : String) (cluster : Nat) : Element :=
  ⟨nodeTag index, "",
    [⟨dataTag "label", name, []⟩, ⟨dataTag "cluster", toString cluster, []⟩]⟩

/-- The edge of two classes, by the indexes of their nodes. -/
def edge (index source target : Nat) (weight : Float) : Element :=
  ⟨edgeTag index source target, "",
    [⟨dataTag "weight", Decimal.plain.render weight, []⟩,
      ⟨dataTag "elabel", Decimal.fixed 2 weight, []⟩]⟩

theorem plain_numbered {letter : String} (h : Plain letter.toList) (n : Nat) :
    Plain (letter ++ toString n).toList := by
  rw [String.toList_append]
  exact h.append (plain_toString n)

theorem wellFormed_graphmlTag : graphmlTag.WellFormed := ⟨by decide, by decide⟩

theorem wellFormed_graphTag : graphTag.WellFormed := ⟨by decide, by decide⟩

theorem wellFormed_dataTag {key : String} (h : Plain key.toList) : (dataTag key).WellFormed :=
  ⟨(by decide : Word "data".toList),
    List.forall_mem_singleton.mpr ⟨(by decide : Word "key".toList), h⟩⟩

theorem wellFormed_nodeTag (index : Nat) : (nodeTag index).WellFormed :=
  ⟨(by decide : Word "node".toList),
    List.forall_mem_singleton.mpr
      ⟨(by decide : Word "id".toList), plain_numbered (by decide) index⟩⟩

theorem wellFormed_edgeTag (index source target : Nat) :
    (edgeTag index source target).WellFormed := by
  refine ⟨(by decide : Word "edge".toList), ?_⟩
  simp only [edgeTag, List.forall_mem_cons]
  exact ⟨⟨by decide, plain_numbered (by decide) index⟩,
    ⟨by decide, plain_numbered (by decide) source⟩,
    ⟨by decide, plain_numbered (by decide) target⟩, nofun⟩

def lineChars (lines : List String) : List Char := lines.flatMap fun l => l.toList ++ ['\n']

theorem toList_unlines (lines : List String) : (unlines lines).toList = lineChars lines :=
  String.toList_ofList

theorem lineChars_append (lines lines' : List String) :
    lineChars (lines ++ lines') = lineChars lines ++ lineChars lines' := List.flatMap_append

theorem lineChars_flatMap {α : Type} (xs : List α) (f : α → List String) :
    lineChars (xs.flatMap f) = xs.flatMap fun x => lineChars (f x) := List.flatMap_assoc ..

theorem lineChars_nil : lineChars [] = [] := rfl

theorem lineChars_cons (l : String) (lines : List String) :
    lineChars (l :: lines) = l.toList ++ '\n' :: lineChars lines := by
  rw [lineChars, List.flatMap_cons, List.append_assoc]
  rfl

theorem toList_dataLine (key value : String) : (dataLine key value).toList =
    "      ".toList ++ ((dataTag key).opening ++ (value.toList ++ (dataTag key).closing)) := by
  show ("      <data key=\"" ++ key ++ "\">" ++ value ++ "</data>").toList = _
  simp only [String.toList_append, Tag.opening, Tag.closing, Tag.chars, dataTag,
    List.flatMap_cons, List.append_assoc, List.cons_append]
  rfl

theorem adds_dataLine (key : String) {value : String} (hkey : Plain key.toList)
    (hvalue : '<' ∉ value.toList) : Adds ((dataLine key value).toList ++ ['\n'])
      [⟨dataTag key, String.ofList (unescape value.toList), []⟩] := by
  rw [toList_dataLine]
  exact ((adds_leaf hvalue (wellFormed_dataTag hkey)).after _ (by decide)).before _ (by decide)

theorem adds_label (name : String) :
    Adds ((dataLine "label" (escape name)).toList ++ ['\n']) [⟨dataTag "label", name, []⟩] := by
  have hvalue : (escape name).toList = escapeChars name.toList := String.toList_ofList
  have hraw : '<' ∉ (escape name).toList := fun hmem =>
    (mem_escapeChars (hvalue ▸ hmem)).1 rfl
  have hadds := adds_dataLine "label" (by decide) hraw
  rwa [hvalue, unescape_escapeChars, String.ofList_toList] at hadds

theorem adds_plain (key : String) {value : String} (hkey : Plain key.toList)
    (hvalue : Plain value.toList) :
    Adds ((dataLine key value).toList ++ ['\n']) [⟨dataTag key, value, []⟩] := by
  have hadds := adds_dataLine key hkey hvalue.not_mem.1
  rwa [hvalue.unescape_eq, String.ofList_toList] at hadds

theorem adds_block {t : Tag} {first last data data' : String} {e e' : Element} (ht : t.WellFormed)
    (hfirst : first.toList = "    ".toList ++ t.opening)
    (hlast : last.toList = "    ".toList ++ t.closing)
    (h : Adds (data.toList ++ ['\n']) [e]) (h' : Adds (data'.toList ++ ['\n']) [e']) :
    Adds (lineChars [first, data, data', last]) [⟨t, "", [e, e']⟩] := by
  have hinside : Adds (['\n'] ++ ((data.toList ++ ['\n']) ++ (data'.toList ++ ['\n'])) ++
      "    ".toList) [e, e'] := ((h.append h').after _ (by decide)).before _ (by decide)
  obtain ⟨layout, hadds, hlayout⟩ := hinside.element ht
  rw [hlayout (List.cons_ne_nil _ _)] at hadds
  have hblock := (hadds.after "    ".toList (by decide)).before ['\n'] (by decide)
  simpa only [lineChars_cons, lineChars_nil, hfirst, hlast, List.append_assoc, List.cons_append,
    List.nil_append] using hblock

theorem adds_node (index : Nat) (name : String) (cluster : Nat) :
    Adds (lineChars (nodeLines index name (some cluster))) [node index name cluster] := by
  refine adds_block (wellFormed_nodeTag index) ?_ ?_ (adds_label name)
    (adds_plain "cluster" (by decide) (plain_toString cluster))
  · show ("    <node id=\"n" ++ toString index ++ "\">").toList = _
    simp only [String.toList_append, Tag.opening, Tag.chars, nodeTag, List.flatMap_cons,
      List.append_assoc, List.cons_append]
    rfl
  · show _ = "    ".toList ++ '<' :: ('/' :: "node".toList ++ ['>'])
    rfl

theorem adds_edge (index source target : Nat) (weight : Float) :
    Adds (lineChars (edgeLines index source target weight)) [edge index source target weight] := by
  refine adds_block (wellFormed_edgeTag index source target) ?_ ?_
    (adds_plain "weight" (by decide) (plain_render weight))
    (adds_plain "elabel" (by decide) (plain_fixed 2 weight))
  · show ("    <edge id=\"e" ++ toString index ++ "\" source=\"n" ++ toString source ++
      "\" target=\"n" ++ toString target ++ "\">").toList = _
    simp only [String.toList_append, Tag.opening, Tag.chars, edgeTag, List.flatMap_cons,
      List.append_assoc, List.cons_append]
    rfl
  · show _ = "    ".toList ++ '<' :: ('/' :: "edge".toList ++ ['>'])
    rfl

/-! ### The text -/

theorem wellFormed_keyTags : ∀ t ∈ keyTags, t.WellFormed := by
  simp only [keyTags, List.forall_mem_cons]
  refine ⟨⟨by decide, by decide⟩, ⟨by decide, by decide⟩, ⟨by decide, by decide⟩,
    ⟨by decide, by decide⟩, nofun⟩

theorem adds_keys : Adds (keyTags.flatMap fun t => ' ' :: ' ' :: (t.single ++ ['\n']))
    (keyTags.map fun t => ⟨t, "", []⟩) :=
  .flatMap fun t ht =>
    ((adds_single (wellFormed_keyTags t ht)).after [' ', ' '] (by decide)).before _ (by decide)

def declaration : List Char := "xml version=\"1.0\" encoding=\"UTF-8\"?".toList

theorem lineChars_graphHead : lineChars graphHead =
    '<' :: ('?' :: declaration ++ ['>']) ++ '\n' :: (graphmlTag.opening ++ '\n' ::
      ((keyTags.flatMap fun t => ' ' :: ' ' :: (t.single ++ ['\n'])) ++
        ' ' :: ' ' :: (graphTag.opening ++ ['\n']))) := by
  decide +kernel

theorem lineChars_graphFoot : lineChars graphFoot =
    ' ' :: ' ' :: (graphTag.closing ++ '\n' :: (graphmlTag.closing ++ ['\n'])) := by
  decide +kernel

/-- The nodes of a matrix whose classes are in these clusters. -/
def nodes (m : Matrix) (clusters : List (Cluster Float)) : List Element :=
  m.classes.zipIdx.map fun (name, i) => node i name ((assigned? clusters name).getD 0)

def edges (m : Matrix) : List Element :=
  m.pairs.zipIdx.map fun (p, k) =>
    edge k ((m.indexOf? p.pair.first).getD 0) ((m.indexOf? p.pair.second).getD 0) p.weight

theorem getElem?_nodes (m : Matrix) (clusters : List (Cluster Float)) (i : Nat) :
    (nodes m clusters)[i]? =
      (m.class? i).map fun name => node i name ((assigned? clusters name).getD 0) := by
  rw [Matrix.class?, nodes, List.getElem?_map, List.getElem?_zipIdx, Option.map_map, Nat.zero_add]
  rfl

theorem getElem?_edges (m : Matrix) (k : Nat) : (edges m)[k]? = m.pairs[k]?.map fun p =>
    edge k ((m.indexOf? p.pair.first).getD 0) ((m.indexOf? p.pair.second).getD 0) p.weight := by
  rw [edges, List.getElem?_map, List.getElem?_zipIdx, Option.map_map, Nat.zero_add]
  rfl

/-- The whole text is read as these elements, with some layout in the graph if it is empty. -/
theorem readMarkup_graph {m : Matrix} {clusters : List (Cluster Float)}
    (hnodes : ∀ name ∈ m.classes, (assigned? clusters name).isSome)
    (hedges : ∀ p ∈ (m.pairs : List (PairCoupling Float)),
      (m.indexOf? p.pair.first).isSome ∧ (m.indexOf? p.pair.second).isSome) :
    ∃ layout, readMarkup (unlines (graphLines m clusters)) =
      some [⟨graphmlTag, "", (keyTags.map fun t => ⟨t, "", []⟩) ++
        [⟨graphTag, layout, nodes m clusters ++ edges m⟩]⟩] := by
  have hnodes : Adds (m.classes.zipIdx.flatMap fun (name, i) =>
      lineChars (nodeLines i name (assigned? clusters name))) (nodes m clusters) := by
    refine .flatMap fun (name, i) hx => ?_
    obtain ⟨id, hid⟩ := Option.isSome_iff_exists.mp (hnodes name (List.fst_mem_of_mem_zipIdx hx))
    simp only [hid, Option.getD_some]
    exact adds_node i name id
  have hedges : Adds (m.pairs.zipIdx.flatMap fun (p, k) => lineChars (pairLines m p k))
      (edges m) := by
    refine .flatMap fun (p, k) hx => ?_
    obtain ⟨hfirst, hsecond⟩ := hedges p (List.fst_mem_of_mem_zipIdx hx)
    obtain ⟨i, hi⟩ := Option.isSome_iff_exists.mp hfirst
    obtain ⟨j, hj⟩ := Option.isSome_iff_exists.mp hsecond
    simp only [pairLines, hi, hj, Option.getD_some]
    exact adds_edge k i j p.weight
  -- from the inside out: the graph, what it stands in, and the declaration in front
  have hinside := ((hnodes.append hedges).after ['\n'] (by decide)).before [' ', ' '] (by decide)
  obtain ⟨layout, hgraph, -⟩ := hinside.element wellFormed_graphTag
  have hall := (adds_keys.append
    ((hgraph.after [' ', ' '] (by decide)).before ['\n'] (by decide))).after ['\n'] (by decide)
  obtain ⟨layout', hgraphml, hlayout⟩ := hall.element wellFormed_graphmlTag
  rw [hlayout (by simp)] at hgraphml
  have hdeclaration : Adds ('<' :: ('?' :: declaration ++ ['>'])) [] :=
    adds_declaration (by decide)
  have htext := hdeclaration.append
    ((hgraphml.after ['\n'] (by decide)).before ['\n'] (by decide))
  refine ⟨layout, readMarkup_of_adds ?_⟩
  rw [toList_unlines, graphLines, lineChars_append, lineChars_append, lineChars_append,
    lineChars_graphHead, lineChars_flatMap, lineChars_flatMap, lineChars_graphFoot]
  simp only [List.append_assoc, List.cons_append, List.nil_append] at htext ⊢
  exact htext

section outcome

variable {m : Matrix} (threshold : Float) (centralCount : Nat) (h : m.WellFormed)
include h

/-- The last of the clusters that hold a class is the only one. -/
theorem assigned?_of_mem {c : Cluster Float}
    (hc : c ∈ (m.cluster threshold centralCount).clusters) {name : String}
    (hname : name ∈ c.members) :
    assigned? (m.cluster threshold centralCount).clusters name = some c.id := by
  have hmem : c ∈ (m.cluster threshold centralCount).clusters.filter (·.contains name) :=
    List.mem_filter.mpr ⟨hc, List.contains_iff_mem.mpr hname⟩
  obtain ⟨last, hlast⟩ := Option.isSome_iff_exists.mp
    (List.getLast?_isSome.mpr (List.ne_nil_of_mem hmem))
  obtain ⟨hlast', hcontains⟩ := List.mem_filter.mp (List.mem_of_getLast? hlast)
  rw [assigned?, hlast, Option.map_some,
    Matrix.eq_of_common_member threshold centralCount h hlast' hc
      (List.contains_iff_mem.mp hcontains) hname]

theorem exists_cluster {name : String} (hname : name ∈ m.classes) :
    ∃ c ∈ (m.cluster threshold centralCount).clusters, name ∈ c.members :=
  List.mem_flatMap.mp
    ((Matrix.flatMap_members_perm threshold centralCount h).mem_iff.mpr hname)

/-- The two classes of a pair by their indexes, the lesser first. -/
theorem exists_ends {p : PairCoupling Float} (hp : p ∈ m.pairs) :
    ∃ i j, i < j ∧ j < m.classCount ∧ m.class? i = some p.pair.first ∧
      m.class? j = some p.pair.second := by
  rw [Matrix.pairs_eq_map h] at hp
  obtain ⟨e, he, rfl⟩ := List.mem_map.mp hp
  obtain ⟨hij, hj⟩ := h.key_lt e he
  exact ⟨_, _, hij, hj, Matrix.class?_eq_nameAt (hij.trans hj), Matrix.class?_eq_nameAt hj⟩

theorem node_of_class {i : Nat} {name : String} (hname : m.class? i = some name)
    {c : Cluster Float} (hc : c ∈ (m.cluster threshold centralCount).clusters)
    (hmem : name ∈ c.members) :
    (nodes m (m.cluster threshold centralCount).clusters)[i]? = some (node i name c.id) := by
  rw [getElem?_nodes, hname, Option.map_some, assigned?_of_mem threshold centralCount h hc hmem]
  rfl

theorem edge_of_pair {i j k : Nat} {p : PairCoupling Float} (hp : m.pairs[k]? = some p)
    (hi : m.class? i = some p.pair.first) (hj : m.class? j = some p.pair.second) :
    (edges m)[k]? = some (edge k i j p.weight) := by
  rw [getElem?_edges, hp, Option.map_some, (Matrix.indexOf?_eq_some_iff h).mpr hi,
    (Matrix.indexOf?_eq_some_iff h).mpr hj]
  rfl

theorem readMarkup_outcome : ∃ layout,
    readMarkup (unlines (graphLines m (m.cluster threshold centralCount).clusters)) =
      some [⟨graphmlTag, "", (keyTags.map fun t => ⟨t, "", []⟩) ++
        [⟨graphTag, layout, nodes m (m.cluster threshold centralCount).clusters ++ edges m⟩]⟩] := by
  refine readMarkup_graph (fun name hname => ?_) (fun p hp => ?_)
  · obtain ⟨c, hc, hmem⟩ := exists_cluster threshold centralCount h hname
    rw [assigned?_of_mem threshold centralCount h hc hmem]
    rfl
  · obtain ⟨i, j, -, -, hi, hj⟩ := exists_ends h hp
    rw [(Matrix.indexOf?_eq_some_iff h).mpr hi, (Matrix.indexOf?_eq_some_iff h).mpr hj]
    exact ⟨rfl, rfl⟩

end outcome

/-! ### What the text determines -/

theorem node_inj {i c c' : Nat} {name name' : String} (h : node i name c = node i name' c') :
    name = name' ∧ c = c' := by
  simp only [node, Element.mk.injEq, List.cons.injEq, and_true, true_and] at h
  exact ⟨h.1, Nat.repr_injective h.2⟩

theorem edge_inj {k i j i' j' : Nat} {w w' : Float} (h : edge k i j w = edge k i' j' w') :
    i = i' ∧ j = j' := by
  simp only [edge, edgeTag, Element.mk.injEq, Tag.mk.injEq, List.cons.injEq, Prod.mk.injEq,
    and_true, true_and, String.append_right_inj] at h
  exact ⟨Nat.repr_injective h.1.1, Nat.repr_injective h.1.2⟩

/-- Nodes and edges are told apart by their tags. -/
theorem nodes_edges_inj {m m' : Matrix} {clusters clusters' : List (Cluster Float)}
    (h : nodes m clusters ++ edges m = nodes m' clusters' ++ edges m') :
    nodes m clusters = nodes m' clusters' ∧ edges m = edges m' := by
  have hfilter (m : Matrix) (clusters : List (Cluster Float)) :
      (nodes m clusters ++ edges m).filter (fun e => e.tag.name = "node") = nodes m clusters := by
    have hnodes : (nodes m clusters).filter (fun e => e.tag.name = "node") = nodes m clusters :=
      List.filter_eq_self.mpr (List.forall_mem_map.mpr fun _ _ => rfl)
    have hedges : (edges m).filter (fun e => e.tag.name = "node") = [] :=
      List.filter_eq_nil_iff.mpr (List.forall_mem_map.mpr fun _ _ => nofun)
    rw [List.filter_append, hnodes, hedges, List.append_nil]
  have hnodes : nodes m clusters = nodes m' clusters' := by
    rw [← hfilter m, h, hfilter]
  rw [hnodes, List.append_cancel_left_eq] at h
  exact ⟨hnodes, h⟩

theorem classes_of_nodes {m m' : Matrix} {clusters clusters' : List (Cluster Float)}
    (h : nodes m clusters = nodes m' clusters') : m.classes = m'.classes := by
  refine List.ext_getElem? fun i => ?_
  have hnode : (nodes m clusters)[i]? = (nodes m' clusters')[i]? := congrArg (·[i]?) h
  rw [getElem?_nodes, getElem?_nodes] at hnode
  show m.class? i = m'.class? i
  cases hname : m.class? i with
  | none =>
    rw [hname, Option.map_none, eq_comm, Option.map_eq_none_iff] at hnode
    exact hnode.symm
  | some name =>
    rw [hname, Option.map_some, eq_comm, Option.map_eq_some_iff] at hnode
    obtain ⟨name', hname', heq⟩ := hnode
    rw [hname', (node_inj heq).1]

/-- Edges with the same ends are those of the same pairs. -/
theorem pairs_of_edges {m m' : Matrix} (h : m.WellFormed) (h' : m'.WellFormed)
    (hclasses : m.classes = m'.classes) (hedges : edges m = edges m') :
    (m.pairs : List (PairCoupling Float)).map PairCoupling.pair =
      (m'.pairs : List (PairCoupling Float)).map PairCoupling.pair := by
  have hclass (i : Nat) : m.class? i = m'.class? i := congrArg (·[i]?) hclasses
  have hlength : (m.pairs : List (PairCoupling Float)).length =
      (m'.pairs : List (PairCoupling Float)).length := by
    simpa [edges] using congrArg List.length hedges
  refine List.ext_getElem (by rwa [List.length_map, List.length_map]) fun k hk hk' => ?_
  rw [List.length_map] at hk hk'
  rw [List.getElem_map, List.getElem_map]
  have hp := List.getElem?_eq_getElem hk
  have hp' := List.getElem?_eq_getElem hk'
  obtain ⟨i, j, -, -, hi, hj⟩ := exists_ends h (List.getElem_mem hk)
  obtain ⟨i', j', -, -, hi', hj'⟩ := exists_ends h' (List.getElem_mem hk')
  have hedge := edge_of_pair h hp hi hj
  rw [hedges, edge_of_pair h' hp' hi' hj'] at hedge
  obtain ⟨rfl, rfl⟩ := edge_inj (Option.some.inj hedge)
  rw [hclass, hi', Option.some.injEq] at hi
  rw [hclass, hj', Option.some.injEq] at hj
  show ClassPair.mk _ _ = ClassPair.mk _ _
  rw [hi, hj]

/-- The text of a graph determines the classes, the cluster of each class, and the pairs. -/
theorem outcome_of_text {m m' : Matrix} (h : m.WellFormed) (h' : m'.WellFormed)
    {threshold threshold' : Float} {centralCount centralCount' : Nat}
    (htext : unlines (graphLines m (m.cluster threshold centralCount).clusters) =
      unlines (graphLines m' (m'.cluster threshold' centralCount').clusters)) :
    m.classes = m'.classes ∧
      (∀ c ∈ (m.cluster threshold centralCount).clusters,
        ∀ c' ∈ (m'.cluster threshold' centralCount').clusters,
          ∀ name ∈ c.members, name ∈ c'.members → c.id = c'.id) ∧
      (m.pairs : List (PairCoupling Float)).map PairCoupling.pair =
        (m'.pairs : List (PairCoupling Float)).map PairCoupling.pair := by
  obtain ⟨layout, hread⟩ := readMarkup_outcome threshold centralCount h
  obtain ⟨layout', hread'⟩ := readMarkup_outcome threshold' centralCount' h'
  rw [htext, hread'] at hread
  simp only [Option.some.injEq, List.cons.injEq, Element.mk.injEq, List.append_cancel_left_eq,
    true_and, and_true] at hread
  obtain ⟨hnodes, hedges⟩ := nodes_edges_inj hread.2.symm
  have hclasses : m.classes = m'.classes := classes_of_nodes hnodes
  refine ⟨hclasses, fun c hc c' hc' name hname hname' => ?_,
    pairs_of_edges h h' hclasses hedges⟩
  have hmem := (Matrix.flatMap_members_perm threshold centralCount h).subset
    (List.mem_flatMap_of_mem hc hname)
  obtain ⟨i, hi⟩ := List.mem_iff_getElem?.mp hmem
  have hi' : m'.class? i = some name := by
    rw [Matrix.class?, ← hclasses]
    exact hi
  have hnode := node_of_class threshold centralCount h hi hc hname
  rw [hnodes, node_of_class threshold' centralCount' h' hi' hc' hname'] at hnode
  exact (node_inj (Option.some.inj hnode)).2.symm

/-- The graph of any events, split at its tags, is read as its classes and its pairs: one node for
each class in order, with the only cluster that the class is in, and one edge for each pair in
order, between the nodes of its two classes. So the text determines all of these, and it is what the
file holds after an export. -/
theorem graph_read_back (events : List Event) (threshold : Float) (centralCount : Nat) :
    let m := Matrix.ofEvents events
    let o := m.cluster threshold centralCount
    let text := unlines (graphLines m o.clusters)
    (∃ (layout : String) (ns es : List Element),
      readMarkup text = some [⟨graphmlTag, "", (keyTags.map fun t => ⟨t, "", []⟩) ++
        [⟨graphTag, layout, ns ++ es⟩]⟩] ∧
      ns.length = m.classCount ∧
      (∀ i name, m.class? i = some name → ∃ c ∈ o.clusters, name ∈ c.members ∧
        (∀ c' ∈ o.clusters, name ∈ c'.members → c' = c) ∧ ns[i]? = some (node i name c.id)) ∧
      es.length = (m.pairs : List (PairCoupling Float)).length ∧
      ∀ k p, m.pairs[k]? = some p → ∃ i j, i < j ∧ j < m.classCount ∧
        m.class? i = some p.pair.first ∧ m.class? j = some p.pair.second ∧
        es[k]? = some (edge k i j p.weight)) ∧
    (∀ (events' : List Event) (threshold' : Float) (centralCount' : Nat),
      let m' := Matrix.ofEvents events'
      let o' := m'.cluster threshold' centralCount'
      text = unlines (graphLines m' o'.clusters) → m.classes = m'.classes ∧
        (∀ c ∈ o.clusters, ∀ c' ∈ o'.clusters,
          ∀ name ∈ c.members, name ∈ c'.members → c.id = c'.id) ∧
        (m.pairs : List (PairCoupling Float)).map PairCoupling.pair =
          (m'.pairs : List (PairCoupling Float)).map PairCoupling.pair) ∧
    ∀ (directory : String) (before after : Files.Tree),
      (exportGraph m o.clusters directory).run before = (.ok (), after) →
        after.read (Files.join (Files.join directory "graph") "coupling_graph.graphml") =
          .ok (.bytes (Text.encode text)) := by
  intro m o text
  have h : m.WellFormed := Matrix.ofEvents_wellFormed events
  refine ⟨?_, fun events' threshold' centralCount' =>
    outcome_of_text h (Matrix.ofEvents_wellFormed events'), fun directory before after hexport =>
    read_graph hexport ("coupling_graph.graphml", text) (List.mem_cons_self ..)⟩
  obtain ⟨layout, hread⟩ := readMarkup_outcome threshold centralCount h
  refine ⟨layout, nodes m o.clusters, edges m, hread, ?_, fun i name hname => ?_, ?_,
    fun k p hp => ?_⟩
  · rw [nodes, List.length_map, List.length_zipIdx, Matrix.classCount]
  · obtain ⟨c, hc, hmem⟩ := exists_cluster threshold centralCount h (List.mem_of_getElem? hname)
    exact ⟨c, hc, hmem,
      fun c' hc' hmem' => Matrix.eq_of_common_member threshold centralCount h hc' hc hmem' hmem,
      node_of_class threshold centralCount h hname hc hmem⟩
  · rw [edges, List.length_map, List.length_zipIdx]
  · obtain ⟨i, j, hij, hj, hi, hj'⟩ := exists_ends h (List.mem_of_getElem? hp)
    exact ⟨i, j, hij, hj, hi, hj', edge_of_pair h hp hi hj'⟩

/-- Names that are markup themselves, one of them with a line feed, and the same events turned
round. -/
theorem graph_read_back_of_markup :
    let events : List Event := [⟨"a<b>", "&lt;\n\"c\""⟩, ⟨"a<b>", "</data>"⟩]
    let m := Matrix.ofEvents events
    let o := m.cluster 0.5 5
    let m' := Matrix.ofEvents events.reverse
    let o' := m'.cluster 0.5 5
    let text := unlines (graphLines m o.clusters)
    let before : Files.Tree := ⟨[(["out"], .directory), (["out", "graph"], .directory)]⟩
    m.class? 1 = some "</data>" ∧
    (∃ c ∈ o.clusters, "</data>" ∈ c.members ∧ ∃ root, readMarkup text = some [root] ∧
      ∃ graph ∈ root.children, node 1 "</data>" c.id ∈ graph.children) ∧
    text = unlines (graphLines m' o'.clusters) ∧ m.classes = m'.classes ∧
    ∃ after, (exportGraph m o.clusters "out").run before = (.ok (), after) ∧
      after.read (Files.join (Files.join "out" "graph") "coupling_graph.graphml") =
        .ok (.bytes (Text.encode text)) := by
  intro events m o m' o' text before
  have hname : m.class? 1 = some "</data>" := by decide +kernel
  have hmatrix : m = m' := by decide +kernel
  have hsame : text = unlines (graphLines m' o'.clusters) :=
    congrArg (fun m => unlines (graphLines m (m.cluster 0.5 5).clusters)) hmatrix
  have hleads : before.Leads (Files.join "out" graphDirectory) ["out", "graph"] :=
    ⟨by decide +kernel, by decide +kernel⟩
  obtain ⟨after, hexport⟩ :=
    export_ok m o.clusters hleads.ensureDirectories hleads (by decide +kernel)
  obtain ⟨⟨layout, ns, es, hread, -, hnodes, -, -⟩, hdetermined, hfile⟩ :=
    graph_read_back events 0.5 5
  obtain ⟨c, hc, hmem, -, hnode⟩ := hnodes 1 "</data>" hname
  refine ⟨hname, ⟨c, hc, hmem, _, hread, ⟨graphTag, layout, ns ++ es⟩, by simp, ?_⟩, hsame,
    (hdetermined events.reverse 0.5 5 hsame).1, after, hexport, hfile "out" before after hexport⟩
  exact List.mem_append_left _ (List.mem_of_getElem? hnode)

end Linkage.Report
