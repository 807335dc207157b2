import TagMarkup.Filter.Macro
import TagMarkup.Filter.Script
import TagMarkup.Rendering.Delayed
import TagMarkup.Rendering.Log
import TagMarkup.Rendering.Run
import TagMarkup.Session
import TagMarkup.Proofs.Patchwork
import TagMarkup.Proofs.Lexing.Move
import TagMarkup.Proofs.Patchwork.Reading
import TagMarkup.Proofs.Tag.Head
import TagMarkup.Proofs.Patchwork.Work
import TagMarkup.Proofs.Patchwork.Rewriting
import TagMarkup.Proofs.Rendering.Refinement
import TagMarkup.Proofs.Patchwork.Solid
import TagMarkup.Proofs.Rendering.Moment
import TagMarkup.Proofs.Rendering.Placement
import TagMarkup.Proofs.Rendering.Regions
import TagMarkup.Proofs.Fragments
import TagMarkup.Proofs.Rendering.Boundaries
import TagMarkup.Proofs.Outline
import TagMarkup.Proofs.Outline.Draft
import TagMarkup.Proofs.Outline.Arena
import TagMarkup.Proofs.Patchwork.Fates
import TagMarkup.Proofs.Rendering.History
import TagMarkup.Proofs.Lexing.Descent
import TagMarkup.Proofs.Markup
import TagMarkup.Proofs.Markup.Lexing
import TagMarkup.Proofs.Markup.Reading
import TagMarkup.Proofs.Markup.Outline
import TagMarkup.Proofs.Markup.Single
import TagMarkup.Proofs.Lexing.Tiling
import TagMarkup.Proofs.Lexing.Coverage
import TagMarkup.Proofs.Markup.Locality
import TagMarkup.Proofs.Tag.Extent
import TagMarkup.Proofs.Outline.Nesting
import TagMarkup.Proofs.Outline.Chains
import TagMarkup.Proofs.Outline.Paths
import TagMarkup.Proofs.Patchwork.Waiting
import TagMarkup.Proofs.Rendering.Convergence
import TagMarkup.Proofs.Markup.Tree
import TagMarkup.Proofs.Tag.Rejection
import TagMarkup.Proofs.Tag.Splitting
import TagMarkup.Proofs.Markup.Joining
import TagMarkup.Proofs.Markup.Writing
import TagMarkup.Proofs.Tag.Excerpts
import TagMarkup.Proofs.Tag.Nested
import TagMarkup.Proofs.Markup.OneTag
import TagMarkup.Proofs.Markup.Values
import TagMarkup.Proofs.Markup.Agreement
import TagMarkup.Proofs.Rendering.Leaf
import TagMarkup.Proofs.Patchwork.Parts
import TagMarkup.Proofs.Patchwork.Steady
import TagMarkup.Proofs.Markup.Parts
import TagMarkup.Proofs.Rendering.Independence
import TagMarkup.Proofs.Filter.Manager
import TagMarkup.Proofs.Filter.Fallbacks
import TagMarkup.Proofs.Filter.Rest
import TagMarkup.Proofs.Filter.Histories
import TagMarkup.Proofs.Rendering.Walk
import TagMarkup.Proofs.Rendering.Simulation
import TagMarkup.Proofs.Rendering.Stopping
import TagMarkup.Proofs.Markup.Standard
import TagMarkup.Proofs.Document
import TagMarkup.Proofs.Document.Reading
import TagMarkup.Proofs.Filter.Deeds
import TagMarkup.Proofs.Filter.Registry
import TagMarkup.Proofs.Filter.Effects
import TagMarkup.Proofs.Filter.Macro
import TagMarkup.Proofs.Markup.Flat
import TagMarkup.Proofs.Rendering.Rounds
import TagMarkup.Proofs.Filter.Definition
import TagMarkup.Proofs.Delimiters
import TagMarkup.Proofs.Store
import TagMarkup.Proofs.Settings.Keys
import TagMarkup.Proofs.Settings.Merging
import TagMarkup.Proofs.Settings.Fields
import TagMarkup.Proofs.Settings.Files
import TagMarkup.Proofs.Settings.Priority
