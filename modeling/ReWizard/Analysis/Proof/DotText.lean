import ReWizard.Analysis.Proof.DotExport
import ReWizard.Analysis.Proof.NormalizedBlocks

/-!
# Reading the DOT export

The block graph is a matter of node and edge lines, and what is exported is a text. There are no
quotation marks in the names of nodes and in their labels, and so the text can be read in one way
only: `toDot_eq_iff` says that it is the text of these lines and of no others. For a context,
`fromContext_blockGraph_iff` asks its own blocks.
-/

namespace ReWizard

/-! ## Names without quotation marks -/

def quotationMark : Char := Char.ofNat 0x22

theorem quotationMark_notMem_hex (n : Nat) : quotationMark ∉ (hex n).toList := by
  unfold hex
  rw [String.toList_ofList]
  exact Digits.notMem_toDigits (by decide) (by decide) (by decide) n

theorem quotationMark_notMem_toString (n : Nat) : quotationMark ∉ (toString n).toList := by
  rw [Nat.toString_eq_ofList_toDigits, String.toList_ofList]
  exact Digits.notMem_toDigits (by decide) (by decide) (by decide) n

theorem quotationMark_notMem_safeName (name : String) :
    quotationMark ∉ (safeName name).toList := by
  unfold safeName
  rw [String.toList_ofList]
  intro h
  obtain ⟨c, -, hc⟩ := List.mem_flatMap.mp h
  split at hc
  · rename_i hsafe
    rw [← List.mem_singleton.mp hc] at hsafe
    exact absurd hsafe (by decide)
  · exact absurd (List.eq_of_mem_replicate hc) (by decide)

/-- The first mark ends the text before it. -/
theorem mark_append_inj {c : Char} : ∀ {u u' x x' : List Char}, c ∉ u → c ∉ u' →
    u ++ c :: x = u' ++ c :: x' → u = u' ∧ x = x' := by
  intro u
  induction u with
  | nil =>
    intro u' x x' _ hu' h
    cases u' with
    | nil => exact ⟨rfl, (List.cons.inj h).2⟩
    | cons d u' => exact absurd ((List.cons.inj h).1 ▸ List.mem_cons_self) hu'
  | cons d u ih =>
    intro u' x x' hu hu' h
    cases u' with
    | nil => exact absurd ((List.cons.inj h).1.symm ▸ List.mem_cons_self) hu
    | cons d' u' =>
      obtain ⟨rfl, htail⟩ := List.cons.inj h
      obtain ⟨rfl, hx⟩ := ih (fun hc => hu (List.mem_cons_of_mem _ hc))
        (fun hc => hu' (List.mem_cons_of_mem _ hc)) htail
      exact ⟨rfl, hx⟩

namespace FunctionResult

/-! ## One line -/

namespace DotLine

/-- The first text in quotation marks. -/
def first : DotLine → String
  | .node name _ => name
  | .edge src _ _ => src

/-- The second text in quotation marks. -/
def second : DotLine → String
  | .node _ label => label
  | .edge _ dst _ => dst

/-- What is between the mark that ends the first text and the second. -/
def middle : DotLine → String
  | .node _ _ => " [label=\""
  | .edge _ _ _ => " -> \""

/-- What follows the mark that ends the second text. -/
def ending : DotLine → String
  | .node _ _ => "];\n"
  | .edge _ _ true => " [color=red];\n"
  | .edge _ _ false => ";\n"

theorem print_eq (l : DotLine) : l.print =
    "    \"" ++ l.first ++ "\"" ++ l.middle ++ l.second ++ "\"" ++ l.ending := by
  cases l with
  | node name label =>
    unfold print first second middle ending
    simp only [String.append_assoc]
    rfl
  | edge src dst red =>
    cases red
    · unfold print first second middle ending
      simp only [String.append_assoc]
      rfl
    · unfold print first second middle ending
      simp only [String.append_assoc]
      rfl

theorem print_toList_append (l : DotLine) (x : List Char) :
    l.print.toList ++ x = "    \"".toList ++ (l.first.toList ++ quotationMark ::
      (l.middle.toList ++ (l.second.toList ++ quotationMark :: (l.ending.toList ++ x)))) := by
  rw [print_eq]
  simp only [String.toList_append, List.append_assoc]
  rfl

/-- No quotation mark ends one of the texts too early. -/
structure Clean (l : DotLine) : Prop where
  first : quotationMark ∉ l.first.toList
  second : quotationMark ∉ l.second.toList

section

variable {l l' : DotLine} {x x' : List Char}

theorem middle_append_inj (h : l.middle.toList ++ x = l'.middle.toList ++ x') :
    l.middle = l'.middle ∧ x = x' := by
  cases l with
  | node name label =>
    cases l' with
    | node name' label' => exact ⟨rfl, List.append_cancel_left h⟩
    | edge src' dst' red' =>
      dsimp only [middle] at h
      cases h
  | edge src dst red =>
    cases l' with
    | node name' label' =>
      dsimp only [middle] at h
      cases h
    | edge src' dst' red' => exact ⟨rfl, List.append_cancel_left h⟩

/-- Whether an edge is red shows in the first characters of its ending. -/
theorem red_append_inj {src dst : String} {red red' : Bool}
    (h : (edge src dst red).ending.toList ++ x = (edge src dst red').ending.toList ++ x') :
    red = red' ∧ x = x' := by
  cases red with
  | false =>
    cases red' with
    | false => exact ⟨rfl, List.append_cancel_left h⟩
    | true =>
      dsimp only [ending] at h
      cases h
  | true =>
    cases red' with
    | false =>
      dsimp only [ending] at h
      cases h
    | true => exact ⟨rfl, List.append_cancel_left h⟩

/-- The parts determine the line. -/
theorem eq_of_parts (hfirst : l.first = l'.first) (hmiddle : l.middle = l'.middle)
    (hsecond : l.second = l'.second) (h : l.ending.toList ++ x = l'.ending.toList ++ x') :
    l = l' ∧ x = x' := by
  cases l with
  | node name label =>
    cases l' with
    | node name' label' =>
      cases hfirst
      cases hsecond
      exact ⟨rfl, List.append_cancel_left h⟩
    | edge src' dst' red' =>
      dsimp only [middle] at hmiddle
      exact absurd hmiddle (by decide)
  | edge src dst red =>
    cases l' with
    | node name' label' =>
      dsimp only [middle] at hmiddle
      exact absurd hmiddle (by decide)
    | edge src' dst' red' =>
      cases hfirst
      cases hsecond
      obtain ⟨rfl, hx⟩ := red_append_inj h
      exact ⟨rfl, hx⟩

/-- A line can be read off the front of a text in one way. -/
theorem print_append_inj (hl : l.Clean) (hl' : l'.Clean)
    (h : l.print.toList ++ x = l'.print.toList ++ x') : l = l' ∧ x = x' := by
  rw [print_toList_append, print_toList_append] at h
  obtain ⟨hfirst, h⟩ := mark_append_inj hl.first hl'.first (List.append_cancel_left h)
  obtain ⟨hmiddle, h⟩ := middle_append_inj h
  obtain ⟨hsecond, h⟩ := mark_append_inj hl.second hl'.second h
  exact eq_of_parts (String.toList_inj.mp hfirst) hmiddle (String.toList_inj.mp hsecond) h

end

end DotLine

/-! ## The lines of a cluster -/

theorem quotationMark_notMem_nodeName (f : FunctionResult) (start : Nat) :
    quotationMark ∉ (f.nodeName start).toList := by
  unfold nodeName
  rw [String.toList_append, String.toList_append]
  simp only [List.mem_append, not_or]
  exact ⟨⟨quotationMark_notMem_safeName f.name, by decide⟩, quotationMark_notMem_hex start⟩

theorem quotationMark_notMem_edgeTarget (f : FunctionResult) (succAddr : Nat) :
    quotationMark ∉ (f.edgeTarget succAddr).toList := by
  unfold edgeTarget
  cases f.targetBlock succAddr with
  | none =>
    simp only [String.toList_append, List.mem_append, not_or]
    exact ⟨by decide, quotationMark_notMem_hex succAddr⟩
  | some b =>
    simp only [String.toList_append, List.mem_append, not_or]
    exact ⟨⟨quotationMark_notMem_safeName f.name, by decide⟩,
      quotationMark_notMem_toString b.start⟩

/-- All lines of a cluster, in the order of printing. -/
def lines (f : FunctionResult) : List DotLine := f.nodeLines ++ f.edgeLines

theorem lines_clean {f : FunctionResult} {l : DotLine} (hl : l ∈ f.lines) : l.Clean := by
  rcases List.mem_append.mp hl with hl | hl
  · obtain ⟨b, -, rfl⟩ := List.mem_map.mp hl
    refine ⟨quotationMark_notMem_nodeName f b.start, ?_⟩
    change quotationMark ∉ ("0x" ++ hex b.start ++ " - 0x" ++ hex b.endAddr).toList
    simp only [String.toList_append, List.mem_append, not_or]
    exact ⟨⟨⟨by decide, quotationMark_notMem_hex b.start⟩, by decide⟩,
      quotationMark_notMem_hex b.endAddr⟩
  · obtain ⟨b, -, hl⟩ := List.mem_flatMap.mp hl
    obtain ⟨s, -, rfl⟩ := List.mem_map.mp hl
    exact ⟨quotationMark_notMem_nodeName f b.start, quotationMark_notMem_edgeTarget f s⟩

/-- The text of a cluster for the function whose lines are `ls`. -/
def clusterText (f : FunctionResult) (ls : List DotLine) : String :=
  "  subgraph cluster_" ++ safeName f.name ++ " \x7b\n" ++
  "    label=\"" ++ f.name ++ " (0x" ++ hex f.start ++ ")\";\n" ++
  "    style=filled;\n" ++
  "    color=lightgrey;\n" ++
  String.join (ls.map DotLine.print) ++
  "  \x7d\n\n"

theorem cluster_eq (f : FunctionResult) : f.cluster = f.clusterText f.lines := rfl

theorem lines_append_inj : ∀ {ls ls' : List DotLine} {x x' : List Char},
    (∀ l ∈ ls, l.Clean) → (∀ l ∈ ls', l.Clean) →
    ls.flatMap (fun l => l.print.toList) ++ ("  \x7d\n\n".toList ++ x) =
      ls'.flatMap (fun l => l.print.toList) ++ ("  \x7d\n\n".toList ++ x') →
    ls = ls' ∧ x = x' := by
  intro ls
  induction ls with
  | nil =>
    intro ls' x x' _ _ h
    cases ls' with
    | nil => exact ⟨rfl, List.append_cancel_left h⟩
    | cons l' ls' =>
      rw [List.flatMap_cons, List.append_assoc, DotLine.print_toList_append] at h
      cases h
  | cons l ls ih =>
    intro ls' x x' hls hls' h
    cases ls' with
    | nil =>
      rw [List.flatMap_cons, List.append_assoc, DotLine.print_toList_append] at h
      cases h
    | cons l' ls' =>
      rw [List.flatMap_cons, List.flatMap_cons, List.append_assoc, List.append_assoc] at h
      obtain ⟨rfl, htail⟩ := DotLine.print_append_inj (hls l List.mem_cons_self)
        (hls' l' List.mem_cons_self) h
      obtain ⟨rfl, hx⟩ := ih (fun m hm => hls m (List.mem_cons_of_mem _ hm))
        (fun m hm => hls' m (List.mem_cons_of_mem _ hm)) htail
      exact ⟨rfl, hx⟩

theorem clusterText_append_inj {f : FunctionResult} {ls ls' : List DotLine} {x x' : List Char}
    (hls : ∀ l ∈ ls, l.Clean) (hls' : ∀ l ∈ ls', l.Clean)
    (h : (f.clusterText ls).toList ++ x = (f.clusterText ls').toList ++ x') :
    ls = ls' ∧ x = x' := by
  refine lines_append_inj hls hls' ?_
  unfold clusterText at h
  simp only [String.toList_append, String.toList_join, List.append_assoc,
    List.append_cancel_left_eq, List.flatMap_map] at h
  exact h

end FunctionResult

/-! ## The whole export -/

/-- The text of the clusters of functions with these lines. -/
def dotText (clusters : List (FunctionResult × List FunctionResult.DotLine)) : String :=
  "digraph CFG \x7b\n" ++ "  rankdir=TB;\n" ++ "  node [shape=box];\n\n" ++
  String.join (clusters.map fun c => c.1.clusterText c.2) ++ "\x7d\n"

theorem clusters_append_inj {x : List Char} :
    ∀ {cs cs' : List (FunctionResult × List FunctionResult.DotLine)},
    cs.map Prod.fst = cs'.map Prod.fst → (∀ c ∈ cs, ∀ l ∈ c.2, l.Clean) →
    (∀ c ∈ cs', ∀ l ∈ c.2, l.Clean) →
    cs.flatMap (fun c => (c.1.clusterText c.2).toList) ++ x =
      cs'.flatMap (fun c => (c.1.clusterText c.2).toList) ++ x →
    cs = cs' := by
  intro cs
  induction cs with
  | nil =>
    intro cs' hfuns _ _ _
    exact (List.map_eq_nil_iff.mp hfuns.symm).symm
  | cons c cs ih =>
    intro cs' hfuns hcs hcs' h
    cases cs' with
    | nil => exact absurd hfuns (List.cons_ne_nil _ _)
    | cons c' cs' =>
      obtain ⟨hfun, hfuns⟩ := List.cons.inj hfuns
      simp only [List.flatMap_cons, List.append_assoc, ← hfun] at h
      obtain ⟨hlines, htail⟩ := FunctionResult.clusterText_append_inj (hcs c List.mem_cons_self)
        (hcs' c' List.mem_cons_self) h
      rw [Prod.ext hfun hlines, ih hfuns (fun d hd => hcs d (List.mem_cons_of_mem _ hd))
        (fun d hd => hcs' d (List.mem_cons_of_mem _ hd)) htail]

namespace AnalysisResult

/-- The functions with the lines of their clusters. -/
def clusters (r : AnalysisResult) : List (FunctionResult × List FunctionResult.DotLine) :=
  r.functions.map fun f => (f, f.lines)

theorem toDot_eq (r : AnalysisResult) : r.toDot = dotText r.clusters := by
  unfold toDot dotText clusters
  rw [funext FunctionResult.cluster_eq, List.map_map]
  rfl

theorem clusters_functions (r : AnalysisResult) : r.clusters.map Prod.fst = r.functions := by
  unfold clusters
  rw [List.map_map]
  exact List.map_id _

theorem clusters_clean (r : AnalysisResult) : ∀ c ∈ r.clusters, ∀ l ∈ c.2, l.Clean := by
  intro c hc l hl
  obtain ⟨f, -, rfl⟩ := List.mem_map.mp hc
  exact FunctionResult.lines_clean hl

/-- **The export can be read back**: of all node and edge lines that the clusters of the functions
could have, the text is that of the node lines and the edge lines of their blocks only. -/
theorem toDot_eq_iff (r : AnalysisResult)
    {cs : List (FunctionResult × List FunctionResult.DotLine)}
    (hfuns : cs.map Prod.fst = r.functions) (hclean : ∀ c ∈ cs, ∀ l ∈ c.2, l.Clean) :
    dotText cs = r.toDot ↔ cs = r.clusters := by
  rw [toDot_eq]
  constructor
  · intro h
    refine clusters_append_inj (hfuns.trans r.clusters_functions.symm) hclean r.clusters_clean
      (x := "\x7d\n".toList) ?_
    have hchars := congrArg String.toList h
    unfold dotText at hchars
    simp only [String.toList_append, String.toList_join, List.append_assoc,
      List.append_cancel_left_eq, List.flatMap_map] at hchars
    exact hchars
  · exact congrArg dotText

/-- What is serialized of blocks that do not overlap does not overlap. -/
theorem fromContext_proper {ctx : AnalysisContext}
    (h : ∀ f ∈ ctx.module.functions, Partition f.basicBlocks) :
    ∀ f ∈ (fromContext ctx).functions, f.Proper := by
  intro f hf
  obtain ⟨g, hg, rfl⟩ := List.mem_map.mp hf
  refine ⟨fun b hb => ?_, List.pairwise_map.mpr (h g hg).disjoint⟩
  obtain ⟨c, hc, rfl⟩ := List.mem_map.mp hb
  exact (h g hg).proper c hc

/-- **The export of a context** is the block graph of its functions if and only if the search for
each successor of their blocks finds nothing, or a start that reads right. -/
theorem fromContext_blockGraph_iff {ctx : AnalysisContext}
    (h : ∀ f ∈ ctx.module.functions, Partition f.basicBlocks) :
    (fromContext ctx).DotIsBlockGraph ↔ ∀ f ∈ ctx.module.functions, ∀ b ∈ f.basicBlocks,
      ∀ s ∈ b.successors, (serializeFunction f).TargetReads s := by
  have hgraph : ∀ f ∈ ctx.module.functions, ((serializeFunction f).IsBlockGraph ↔
      ∀ b ∈ f.basicBlocks, ∀ s ∈ b.successors, (serializeFunction f).TargetReads s) := fun f hf =>
    (isBlockGraph_iff (fromContext_proper h _ (List.mem_map_of_mem hf))).trans
      List.forall_mem_map
  constructor
  · exact fun hdot f hf => (hgraph f hf).mp (hdot _ (List.mem_map_of_mem hf))
  · intro hreads f hf
    obtain ⟨g, hg, rfl⟩ := List.mem_map.mp hf
    exact (hgraph g hg).mpr (hreads g hg)

end AnalysisResult

end ReWizard
