import PathQuery.CommandLine.Run
import PathQuery.Main
import PathQuery.Proofs.Grammar
import PathQuery.Proofs.Reading
import PathQuery.Proofs.Compiling
import PathQuery.Proofs.Notation
import PathQuery.Proofs.WalkedTrails
import PathQuery.Proofs.Visited
import PathQuery.Proofs.Positions
import PathQuery.Proofs.Leads
import PathQuery.Proofs.Reached
import PathQuery.Proofs.Pruning
import PathQuery.Proofs.Lookahead
import PathQuery.Proofs.Locations
import PathQuery.Proofs.DocumentOrder
import PathQuery.Proofs.LoadedTrees
import PathQuery.Proofs.Loading
import PathQuery.Proofs.Queries
import PathQuery.Proofs.AnyTrail
import PathQuery.Proofs.Composition
import PathQuery.Proofs.Stages
import PathQuery.Proofs.StagedReading
import PathQuery.Proofs.Refusals
import PathQuery.Proofs.Viability
import PathQuery.Proofs.Openings
import PathQuery.Proofs.Diagnoses
import PathQuery.Proofs.KeyPaths
import PathQuery.Proofs.Observations
import PathQuery.Proofs.CountedRuns
import PathQuery.Proofs.ScanBounds
import PathQuery.Proofs.Scopes
import PathQuery.Proofs.Quoting
