import LayoutRules.Text
import LayoutRules.Boundary
import LayoutRules.Candidate
import LayoutRules.Choice
import LayoutRules.Expiry
import LayoutRules.Fault
import LayoutRules.Level
import LayoutRules.Journal
import LayoutRules.Settings
import LayoutRules.Run
import LayoutRules.Rule.Basic
import LayoutRules.Rule.Clause
import LayoutRules.Rule.Operations
import LayoutRules.Rule.Outline
import LayoutRules.Trail
import LayoutRules.Override
import LayoutRules.Names
import LayoutRules.Scenario.Tally
import LayoutRules.Scenario.Method
import LayoutRules.Scenario.Expr
import LayoutRules.Scenario.Script
import LayoutRules.Scenario.Build
import LayoutRules.Scenario.Step
import LayoutRules.Scenario.Program
import LayoutRules.Proofs.Bench
import LayoutRules.Proofs.Coherence
import LayoutRules.Proofs.Narrowing
import LayoutRules.Proofs.Representation
import LayoutRules.Proofs.Pruning
import LayoutRules.Proofs.WellBehaved
import LayoutRules.Proofs.Scan
import LayoutRules.Proofs.Journey
import LayoutRules.Proofs.Lockstep
import LayoutRules.Proofs.Sifting
import LayoutRules.Proofs.Associativity
import LayoutRules.Proofs.Evaluation
import LayoutRules.Proofs.Dependability
import LayoutRules.Proofs.Restraint
import LayoutRules.Proofs.Calls
import LayoutRules.Proofs.Discretion
import LayoutRules.Proofs.Legibility
import LayoutRules.Proofs.Rendering
import LayoutRules.Proofs.Dialogue
import LayoutRules.Proofs.Fallback
import LayoutRules.Proofs.Silence
import LayoutRules.Proofs.Places
import LayoutRules.Proofs.Retention
import LayoutRules.Proofs.Search
import LayoutRules.Proofs.Blocking
import LayoutRules.Proofs.Sharing
import LayoutRules.Proofs.Rederivation
import LayoutRules.Proofs.Arrival
import LayoutRules.Proofs.Notices
import LayoutRules.Proofs.Consultation
import LayoutRules.Proofs.Selection
import LayoutRules.Proofs.Stream
import LayoutRules.Proofs.Configuration
