import HindleyMilner.Main
import HindleyMilner.Proofs.Meets
import HindleyMilner.Proofs.TableGrowth
import HindleyMilner.Proofs.ReducedSet
import HindleyMilner.Proofs.ClassLattice
import HindleyMilner.Proofs.SuperclassSearch
import HindleyMilner.Proofs.Satisfiability
import HindleyMilner.Proofs.GroundInstance
import HindleyMilner.Proofs.Solutions
import HindleyMilner.Proofs.StoreUpdate
import HindleyMilner.Proofs.Assignment
import HindleyMilner.Proofs.Evolution
import HindleyMilner.Proofs.Requirement
import HindleyMilner.Proofs.Unification
import HindleyMilner.Proofs.MostGeneral
import HindleyMilner.Proofs.Typing
import HindleyMilner.Proofs.Setting
import HindleyMilner.Proofs.Instantiation
import HindleyMilner.Proofs.InferenceRun
import HindleyMilner.Proofs.InferenceRules
import HindleyMilner.Proofs.Principal
import HindleyMilner.Proofs.InferenceMoves
import HindleyMilner.Proofs.History
import HindleyMilner.Proofs.SetInvariant
import HindleyMilner.Proofs.FairSession
import HindleyMilner.Proofs.UnificationOrder
import HindleyMilner.Proofs.Extension
import HindleyMilner.Proofs.Lookup
import HindleyMilner.Proofs.Tightening
import HindleyMilner.Proofs.LookingThrough
import HindleyMilner.Proofs.Retrace
import HindleyMilner.Proofs.Settled
import HindleyMilner.Proofs.Repetition
import HindleyMilner.Proofs.Fuelled
import HindleyMilner.Proofs.Termination
import HindleyMilner.Proofs.Pairing
import HindleyMilner.Proofs.Lockstep
import HindleyMilner.Proofs.Symmetry
import HindleyMilner.Proofs.AlikeText
import HindleyMilner.Proofs.InferenceLockstep
import HindleyMilner.Proofs.Elsewhere
import HindleyMilner.Proofs.Independence
import HindleyMilner.Proofs.Lexing
import HindleyMilner.Proofs.Grammar
import HindleyMilner.Proofs.NamedVariables
import HindleyMilner.Proofs.SignatureLanguage
import HindleyMilner.Proofs.Rendering
import HindleyMilner.Proofs.RoundTrip
import HindleyMilner.Proofs.MatchedText
import HindleyMilner.Proofs.SourceReading
import HindleyMilner.Proofs.ContextShape
import HindleyMilner.Proofs.VisitingOrder
import HindleyMilner.Proofs.Refinement
import HindleyMilner.Proofs.FreshCopy
import HindleyMilner.Proofs.UnifiedCopies
import HindleyMilner.Proofs.ErrorPlace
import HindleyMilner.Proofs.Arguments
import HindleyMilner.Proofs.CanonicalText
import HindleyMilner.Proofs.ReadingSteps
import HindleyMilner.Proofs.ContextMeaning
import HindleyMilner.Proofs.LexemePlaces
import HindleyMilner.Proofs.ByteScan
import HindleyMilner.Proofs.ViablePrefix
import HindleyMilner.Proofs.ScopeUse
import HindleyMilner.Proofs.ParseErrors
import HindleyMilner.Proofs.DeclaredClasses
import HindleyMilner.Proofs.ClassLoad
import HindleyMilner.Proofs.NewScope
import HindleyMilner.Proofs.CatalogLoad
import HindleyMilner.Proofs.FollowedFailure
import HindleyMilner.Proofs.CatchingUp
import HindleyMilner.Proofs.TrailingStores
import HindleyMilner.Proofs.FailingAgain
import HindleyMilner.Proofs.ClearClasses
import HindleyMilner.Proofs.SecondCopies
import HindleyMilner.Proofs.FilledViews
import HindleyMilner.Proofs.SecondRun
import HindleyMilner.Proofs.InferenceAgain
import HindleyMilner.Proofs.BindingsAgain
import HindleyMilner.Proofs.RepeatedInference
import HindleyMilner.Proofs.LevelByLevel
