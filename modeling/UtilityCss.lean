import UtilityCss.Compiler
import UtilityCss.FileTree
import UtilityCss.Proofs.Registration
import UtilityCss.Proofs.StableOrder
import UtilityCss.Proofs.RuleOrder
import UtilityCss.Proofs.SystemShape
import UtilityCss.Proofs.CompiledTree
import UtilityCss.Proofs.IncrementalBuild
import UtilityCss.Proofs.PlainText
import UtilityCss.Proofs.ClosedText
import UtilityCss.Proofs.PrintedTree
import UtilityCss.Proofs.RoundTrip
import UtilityCss.Proofs.LineEnd
import UtilityCss.Proofs.BlockReading
import UtilityCss.Proofs.ClassSelector
import UtilityCss.Proofs.ReaderSteps
import UtilityCss.Proofs.SelectorSpots
import UtilityCss.Proofs.TopRules
import UtilityCss.Proofs.RuleReading
import UtilityCss.Proofs.Containment
import UtilityCss.Proofs.ClassRules
import UtilityCss.Proofs.ImportChain
import UtilityCss.Proofs.Compilation
import UtilityCss.Proofs.ApplyExpansion
import UtilityCss.Proofs.CallExpansion
import UtilityCss.Proofs.CallText
import UtilityCss.Proofs.CallTermination
import UtilityCss.Proofs.HoistLevels
import UtilityCss.Proofs.Reprint
import UtilityCss.Proofs.CollectWalk
import UtilityCss.Proofs.InvalidNames
import UtilityCss.Proofs.WordText
import UtilityCss.Proofs.MediaOptions
import UtilityCss.Proofs.FileDirectives
import UtilityCss.Proofs.ModuleLoads
import UtilityCss.Proofs.TreePlace
import UtilityCss.Proofs.ThemeEmission
import UtilityCss.Proofs.SeenNames
import UtilityCss.Proofs.RegisteredOrder
import UtilityCss.Proofs.UsedNames
import UtilityCss.Proofs.DefinitionOrder
import UtilityCss.Proofs.MarkedNames
import UtilityCss.Proofs.ContentMarks
import UtilityCss.Proofs.ApplyMarks
import UtilityCss.Proofs.CircularUse
import UtilityCss.Proofs.VariantContent
import UtilityCss.Proofs.PrefixedNames
import UtilityCss.Proofs.CompoundContent
import UtilityCss.Proofs.ConditionText
import UtilityCss.Proofs.Negation
import UtilityCss.Proofs.ThemeOverride
import UtilityCss.Proofs.EscapedText
import UtilityCss.Proofs.ThemeReading
import UtilityCss.Proofs.NameSpelling
import UtilityCss.Proofs.TopLevelParts
import UtilityCss.Proofs.OperatorSpacing
import UtilityCss.Proofs.SpacedIdentifiers
import UtilityCss.Proofs.Occurrences
import UtilityCss.Proofs.Visits
import UtilityCss.Proofs.WalkContract
import UtilityCss.Proofs.WordStretches
import UtilityCss.Proofs.NameSelectors
import UtilityCss.Proofs.FoundNodes
