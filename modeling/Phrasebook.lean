import Phrasebook.Main
import Phrasebook.Proofs.Tables
import Phrasebook.Proofs.Session
import Phrasebook.Proofs.Conservation
import Phrasebook.Proofs.OrderIndependence
import Phrasebook.Proofs.Edits
import Phrasebook.Proofs.Escapes
import Phrasebook.Proofs.Walk
import Phrasebook.Proofs.SecondRun
import Phrasebook.Proofs.NodeKinds
import Phrasebook.Proofs.TokenRows
import Phrasebook.Proofs.Respelling
import Phrasebook.Proofs.Documents
import Phrasebook.Proofs.MarkupReading
import Phrasebook.Proofs.MarkupEvents
import Phrasebook.Proofs.RoundTrip
import Phrasebook.Proofs.TemplateTexts
import Phrasebook.Proofs.EnclosedRuns
import Phrasebook.Proofs.Leaves
import Phrasebook.Proofs.Writing
import Phrasebook.Proofs.StructureKept
import Phrasebook.Proofs.TemplateTraces
import Phrasebook.Proofs.WrittenDocuments
import Phrasebook.Proofs.TemplateSecondRun
import Phrasebook.Proofs.Replacement
import Phrasebook.Proofs.SimultaneousEdits
import Phrasebook.Proofs.Frames
import Phrasebook.Proofs.Spans
import Phrasebook.Proofs.Pieces
import Phrasebook.Proofs.EscapeSequences
import Phrasebook.Proofs.LiteralBodies
import Phrasebook.Proofs.KeptLiterals
import Phrasebook.Proofs.CallReading
import Phrasebook.Proofs.InsertedCalls
import Phrasebook.Proofs.AttributeStrings
import Phrasebook.Proofs.FileTrees
import Phrasebook.Proofs.Paths
import Phrasebook.Proofs.ProjectWalk
import Phrasebook.Proofs.Mirror
import Phrasebook.Proofs.SourceKept
import Phrasebook.Proofs.LayoutErrors
import Phrasebook.Proofs.PersistedTables
import Phrasebook.Proofs.DictionaryContents
import Phrasebook.Proofs.NeutralCode
import Phrasebook.Proofs.NothingToLocalize
import Phrasebook.Proofs.RestoredEscapes
import Phrasebook.Proofs.HanInCode
import Phrasebook.Proofs.ObtainedValues
import Phrasebook.Proofs.Outlines
import Phrasebook.Proofs.ReadDocuments
import Phrasebook.Proofs.Spellings
import Phrasebook.Proofs.TreeShapes
import Phrasebook.Proofs.LocalizedTrees
import Phrasebook.Proofs.LocalizedNames
import Phrasebook.Proofs.Guards
import Phrasebook.Proofs.EditedParts
import Phrasebook.Proofs.SpelledTrees
import Phrasebook.Proofs.SettledScripts
import Phrasebook.Proofs.MarkupLocality
import Phrasebook.Proofs.Unterminated
import Phrasebook.Proofs.NaturalSegments
import Phrasebook.Proofs.ModuleReferences
import Phrasebook.Proofs.ScriptsWithoutPages
import Phrasebook.Proofs.Attempts
import Phrasebook.Proofs.Permits
import Phrasebook.Proofs.CanonicalForms
import Phrasebook.Proofs.ChineseScripts
import Phrasebook.Proofs.CodeSpellings
import Phrasebook.Proofs.LanguageTags
import Phrasebook.Proofs.KeywordTags
import Phrasebook.Proofs.ExtensionTags
import Phrasebook.Proofs.ConfiguredLocales
