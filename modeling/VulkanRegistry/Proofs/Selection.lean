/-
Options that want more.

Options for one interface are ordered by what they want.  Along this order the document stays
as it is, and so does every extension that was selected; and as dependencies are alternatives
of names that are needed together, what holds among some names holds among more of them.
-/
import VulkanRegistry.Dependency.Expression
import VulkanRegistry.Document.Filter
import VulkanRegistry.Selection

namespace VulkanRegistry

namespace RegistryOptions

/-- The second options are for the same interface and want whatever the first ones do. -/
structure AtMost (small large : RegistryOptions) : Prop where
  api : large.api = small.api
  platforms : ∀ platform, small.acceptsPlatform platform = true →
    large.acceptsPlatform platform = true
  authors : ∀ author, small.acceptsAuthor author = true → large.acceptsAuthor author = true
  allowed : ∀ name ∈ small.allowed, name ∈ large.allowed
  blocked : ∀ name ∈ large.blocked, name ∈ small.blocked

theorem acceptsApi_congr {small large : RegistryOptions} (h : large.api = small.api) :
    large.acceptsApi = small.acceptsApi := by
  funext api
  unfold acceptsApi
  rw [h]

end RegistryOptions

variable {small large : RegistryOptions}

/-- Options for one interface leave the same of a document. -/
theorem Document.forApi_congr (doc : Document) (h : large.api = small.api) :
    doc.forApi large = doc.forApi small := by
  have hmembers : TypeDecl.forApi large = TypeDecl.forApi small := by
    funext decl
    rw [TypeDecl.forApi, TypeDecl.forApi, RegistryOptions.acceptsApi_congr h]
  have hparams : CommandDecl.forApi large = CommandDecl.forApi small := by
    funext decl
    rw [CommandDecl.forApi, CommandDecl.forApi, RegistryOptions.acceptsApi_congr h]
  have hvalues : EnumBlock.forApi large = EnumBlock.forApi small := by
    funext block
    rw [EnumBlock.forApi, EnumBlock.forApi, RegistryOptions.acceptsApi_congr h]
  have hdirectives : Directive.isForApi large = Directive.isForApi small := by
    funext d
    unfold Directive.isForApi
    rw [RegistryOptions.acceptsApi_congr h]
  have hblocks : blocksForApi large = blocksForApi small := by
    funext blocks
    rw [blocksForApi, blocksForApi, RegistryOptions.acceptsApi_congr h, hdirectives]
  rw [forApi, forApi, RegistryOptions.acceptsApi_congr h, hmembers, hparams, hvalues, hblocks]

namespace ExtensionDecl

theorem passes_mono (h : small.AtMost large) {ext : ExtensionDecl}
    (hpasses : ext.passes small = true) : ext.passes large = true := by
  simp only [passes, Bool.and_eq_true] at hpasses ⊢
  obtain ⟨⟨hplatform, hauthor⟩, hsupported⟩ := hpasses
  refine ⟨⟨h.platforms _ hplatform, h.authors _ hauthor⟩, ?_⟩
  rw [h.api]
  exact hsupported

/-- Options that want more select no fewer extensions. -/
theorem isSelected_mono (h : small.AtMost large) {ext : ExtensionDecl}
    (hselected : ext.isSelected small = true) : ext.isSelected large = true := by
  simp only [isSelected, Bool.and_eq_true, Bool.or_eq_true, Bool.not_eq_true',
    List.contains_iff_mem, Bool.eq_false_iff, ne_eq] at hselected ⊢
  obtain ⟨⟨hreserved, hwanted⟩, hblocked⟩ := hselected
  refine ⟨⟨hreserved, ?_⟩, fun hmem => hblocked (h.blocked _ hmem)⟩
  rcases hwanted with hpasses | hallowed
  · exact Or.inl (passes_mono h hpasses)
  · exact Or.inr (h.allowed _ hallowed)

end ExtensionDecl

namespace Dependency

variable {active others : String → Bool}

/-- What holds among some names holds among more of them. -/
theorem Expr.eval_mono (h : ∀ name, active name = true → others name = true) {e : Expr}
    (heval : e.eval active = true) : e.eval others = true := by
  induction e with
  | name n => exact h n heval
  | all left right ihLeft ihRight =>
      rw [eval_all, Bool.and_eq_true] at heval ⊢
      exact ⟨ihLeft heval.1, ihRight heval.2⟩
  | any left right ihLeft ihRight =>
      rw [eval_any, Bool.or_eq_true] at heval ⊢
      exact heval.imp ihLeft ihRight

theorem evaluate_mono (h : ∀ name, active name = true → others name = true) {expr : String}
    (heval : evaluate expr active = .ok true) : evaluate expr others = .ok true := by
  rw [evaluate_eq_map] at heval ⊢
  cases hparse : parse expr with
  | error fault =>
      rw [hparse] at heval
      simp [Except.map] at heval
  | ok e =>
      rw [hparse] at heval
      simp only [Except.map, Except.ok.injEq] at heval ⊢
      exact e.eval_mono h heval

end Dependency

end VulkanRegistry
