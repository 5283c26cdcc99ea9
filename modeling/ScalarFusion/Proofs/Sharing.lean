import ScalarFusion.Proofs.Tagging

/-!
Signatures show nothing of the sharing in a graph. What is kept of shared nodes while a signature is
written, and which of their outputs comes first, leaves no trace in the text.
-/
namespace ScalarFusion

/-- A signature is the join of what plain recursion writes for the outputs. The equations of the
    recursion have a solution, and the outputs are written as any solution says, whatever values of
    the graph were written before them. -/
theorem signature_written_out {g : Arena} (reachable : Reachable g) (inputs : List ValueId)
    {outputs : List ValueId} (known : g.Knows outputs) :
    (∃ text, (g.map Composite.signature).WrittenOut inputs text) ∧
    ∀ text, (g.map Composite.signature).WrittenOut inputs text →
      (g.map Composite.signature).signature inputs outputs =
        "Composite\x7b" ++ String.intercalate ", " (outputs.map text) ++ "\x7d" ∧
      ∀ visited, g.Knows visited →
        (((g.map Composite.signature).signatureTexts inputs visited *>
          (g.map Composite.signature).signatureTexts inputs outputs).run .empty).1 =
            outputs.map text := by
  have ordered := reachable.built.ordered.map Composite.signature
  refine ⟨⟨_, Graph.writtenOut_writeOut ordered inputs⟩, fun text written => ⟨?_, ?_⟩⟩
  · exact Graph.signature_eq_of_writtenOut ordered written known
  · exact fun visited before => Graph.signatureTexts_after ordered written before known

theorem gathered_written_out : Reachable .gathered ∧ Graph.gathered.Knows [2, 4, 1] ∧
    Graph.gathered.Knows [3] ∧ ∃ text,
      (Graph.gathered.map Composite.signature).WrittenOut [0] text ∧ text 2 = text 1 ++ "::1" ∧
      (Graph.gathered.map Composite.signature).signature [0] [2, 4, 1] =
        "Composite\x7b" ++ String.intercalate ", " [text 2, text 4, text 1] ++ "\x7d" ∧
      (((Graph.gathered.map Composite.signature).signatureTexts [0] [3] *>
        (Graph.gathered.map Composite.signature).signatureTexts [0] [2, 4, 1]).run .empty).1 =
          [text 2, text 4, text 1] := by
  have known : Graph.gathered.Knows [2, 4, 1] := by decide
  have before : Graph.gathered.Knows [3] := by decide
  obtain ⟨⟨text, written⟩, same⟩ := signature_written_out gathered_reachable [0] known
  obtain ⟨signature, after⟩ := same text written
  have node : Graph.gathered.nodes[0]? = some ⟨.call .both, [0], [1, 2]⟩ := rfl
  have here : (Graph.gathered.map Composite.signature).nodes[0]? =
      some ⟨.call Composite.both.signature, [0], [1, 2]⟩ := by
    rw [Graph.map_node_at, node]
    rfl
  have first := written.output 1 (by decide) (.signed .w8) 0 0 _ rfl here
  have second := written.output 2 (by decide) (.signed .w8) 0 1 _ rfl here
  refine ⟨gathered_reachable, known, before, text, written, ?_, signature, after [3] before⟩
  rw [first, second, if_pos (by decide), if_neg (by decide), String.append_empty]
  rfl

end ScalarFusion
