import Linkage.Report.Saved

/-!
# The coupling graph

The classes and their pairs as a graph in GraphML, and the cluster of each class as lines of two
fields. Both are written into a directory of their own below that of the results.

Embeds `export_graph`, `escape_xml` as `escape`, `write_graphml` and `write_assignments`.
-/

namespace Linkage.Report

def replaceChar (c : Char) (text : List Char) (cs : List Char) : List Char :=
  cs.flatMap fun x => if x = c then text else [x]

/-- A text without characters of markup: these are replaced one kind after another, the ampersand
first. -/
def escapeChars (cs : List Char) : List Char :=
  replaceChar '"' "&quot;".toList <| replaceChar '>' "&gt;".toList <|
    replaceChar '<' "&lt;".toList <| replaceChar '&' "&amp;".toList cs

def entity : Char → List Char
  | '&' => "&amp;".toList
  | '<' => "&lt;".toList
  | '>' => "&gt;".toList
  | '"' => "&quot;".toList
  | c => [c]

def escape (s : String) : String := String.ofList (escapeChars s.toList)

/-- The cluster of a class. Of several clusters that hold it, it is the last. -/
def assigned? {R : Type} (clusters : List (Cluster R)) (name : String) : Option Nat :=
  (clusters.filter fun c => c.contains name).getLast?.map Cluster.id

def graphHead : List String :=
  ["<?xml version=\"1.0\" encoding=\"UTF-8\"?>",
   "<graphml xmlns=\"http://graphml.graphdrawing.org/xmlns\">",
   "  <key id=\"label\" for=\"node\" attr.name=\"label\" attr.type=\"string\"/>",
   "  <key id=\"cluster\" for=\"node\" attr.name=\"cluster\" attr.type=\"int\"/>",
   "  <key id=\"weight\" for=\"edge\" attr.name=\"weight\" attr.type=\"double\"/>",
   "  <key id=\"elabel\" for=\"edge\" attr.name=\"label\" attr.type=\"string\"/>",
   "  <graph id=\"G\" edgedefault=\"undirected\">"]

def graphFoot : List String := ["  </graph>", "</graphml>"]

def dataLine (key value : String) : String := s!"      <data key=\"{key}\">{value}</data>"

def nodeLines (index : Nat) (name : String) (cluster : Option Nat) : List String :=
  [s!"    <node id=\"n{index}\">", dataLine "label" (escape name)] ++
    (cluster.map fun id => dataLine "cluster" (toString id)).toList ++ ["    </node>"]

def edgeLines (index source target : Nat) (weight : Float) : List String :=
  [s!"    <edge id=\"e{index}\" source=\"n{source}\" target=\"n{target}\">",
   dataLine "weight" (Decimal.plain.render weight), dataLine "elabel" (Decimal.fixed 2 weight),
   "    </edge>"]

def pairLines (m : Matrix) (p : PairCoupling Float) (index : Nat) : List String :=
  match m.indexOf? p.pair.first, m.indexOf? p.pair.second with
  | some source, some target => edgeLines index source target p.weight
  | _, _ => []

def graphLines (m : Matrix) (clusters : List (Cluster Float)) : List String :=
  graphHead ++
    (m.classes.zipIdx.flatMap fun (name, i) => nodeLines i name (assigned? clusters name)) ++
    (m.pairs.zipIdx.flatMap fun (p, k) => pairLines m p k) ++ graphFoot

def unlines (lines : List String) : String :=
  String.ofList (lines.flatMap fun l => l.toList ++ ['\n'])

def assignmentLine (name : String) (id : Nat) : String := s!"{name},{id}"

def assignmentLines {R : Type} (clusters : List (Cluster R)) : List String :=
  "class,cluster_id" ::
    clusters.flatMap fun c => c.members.map fun name => assignmentLine name c.id

def graphDirectory : String := "graph"

def graphNames : List String := ["coupling_graph.graphml", "class_assignments.csv"]

def graphFiles (m : Matrix) (clusters : List (Cluster Float)) : List (String × String) :=
  graphNames.zip [unlines (graphLines m clusters), unlines (assignmentLines clusters)]

def exportGraph (m : Matrix) (clusters : List (Cluster Float)) (directory : String) :
    Files.Action Unit := do
  let graph := Files.join directory graphDirectory
  Files.ensureDirectories graph
  writeAll graph (graphFiles m clusters)

end Linkage.Report
