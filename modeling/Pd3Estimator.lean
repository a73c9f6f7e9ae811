import Pd3Estimator.Datatypes
import Pd3Estimator.Loss
import Pd3Estimator.Aggregator
import Pd3Estimator.Reorder
import Pd3Estimator.ExtentPackets
import Pd3Estimator.LossSort
import Pd3Estimator.DensityWindow
import Pd3Estimator.Rfc4737
import Pd3Estimator.ExtentSimulation
import Pd3Estimator.ExtentRecords
import Pd3Estimator.Reporter
import Pd3Estimator.Fistq
import Pd3Estimator.LinkedLists
import Pd3Estimator.Storage
import Pd3Estimator.Handoff
import Pd3Estimator.HandoffOwnership
import Pd3Estimator.HandoffReporter
import Pd3Estimator.HandoffRun
import Pd3Estimator.FistqOwnership
import Pd3Estimator.Atof
import Pd3Estimator.Schedule
import Pd3Estimator.Init
import Pd3Estimator.LossSweep
import Pd3Estimator.LossPermutation
import Pd3Estimator.HashTable
import Pd3Estimator.HashTableRefinement
import Pd3Estimator.FistqList
import Pd3Estimator.FistqSystem
import Pd3Estimator.FistqOrder
import Pd3Estimator.LossAccounting
